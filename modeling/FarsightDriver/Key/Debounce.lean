import FarsightDriver.Foundation.Checked
import FarsightDriver.Foundation.Prefixes
import FarsightDriver.Key.Basic

/-!
# Debouncing

`myhandler` measures the time since the last press as a difference of two values
of `jiffies`, which count modulo the range of `unsigned long`, and it starts as
if there had been a press at the value 0.  Time itself has neither a wrap nor a
press at 0.
-/

namespace FarsightDriver.Key

open FarsightDriver.Foundation

abbrev ULong (model : DataModel) := BitVec model.bits

def jiffiesAt (model : DataModel) (offset time : Nat) : ULong model :=
  BitVec.ofNat model.bits (time + offset)

/-- The test `jiffies - last > 50`. -/
def Accepts {model : DataModel} (last jiffies : ULong model) : Prop := 50 < jiffies - last

instance {model : DataModel} (last jiffies : ULong model) : Decidable (Accepts last jiffies) :=
  inferInstanceAs (Decidable (_ < _))

/-- The static variable of `myhandler`; the times of the accepted calls are not part of it. -/
structure Debouncer (model : DataModel) where
  last : ULong model
  accepted : List Nat
  deriving DecidableEq

variable (model : DataModel) (offset : Nat)

def myhandler (d : Debouncer model) (time : Nat) : Debouncer model :=
  let jiffies := jiffiesAt model offset time
  if Accepts d.last jiffies then ⟨jiffies, d.accepted ++ [time]⟩ else d

def calls (times : List Nat) : Debouncer model := times.foldl (myhandler model offset) ⟨0, []⟩

/-- A call was accepted at most 50 ticks before. -/
def Recent (accepted : List Nat) (time : Nat) : Prop := ∃ press ∈ accepted, time ≤ press + 50

instance (accepted : List Nat) (time : Nat) : Decidable (Recent accepted time) :=
  inferInstanceAs (Decidable (∃ _ ∈ accepted, _))

/-- The handler ignores a call exactly if another was accepted at most 50 ticks before. -/
def Debounces (times : List Nat) : Prop :=
  AtEach (fun front time =>
    ¬ Accepts (calls model offset front).last (jiffiesAt model offset time) ↔
      Recent (calls model offset front).accepted time) times

instance (times : List Nat) : Decidable (Debounces model offset times) :=
  inferInstanceAs (Decidable (AtEach _ times))

/-! ## Debouncing on true time -/

/-- The times that are accepted when nothing wraps. -/
def presses (times : List Nat) : List Nat :=
  times.foldl
    (fun accepted time => if Recent accepted time then accepted else accepted ++ [time]) []

/-- The counter tells a call at `time` from one within 50 ticks after the last press. -/
def Tells (lastPress : Option Nat) (time : Nat) : Prop :=
  match lastPress with
  | none => 50 < (time + offset) % 2 ^ model.bits
  | some press => time ≤ press + 50 ∨ 50 < (time - press) % 2 ^ model.bits

instance (lastPress : Option Nat) (time : Nat) : Decidable (Tells model offset lastPress time) := by
  unfold Tells
  split <;> infer_instance

variable {model offset}

theorem calls_append (front : List Nat) (time : Nat) :
    calls model offset (front ++ [time]) =
      if Accepts (calls model offset front).last (jiffiesAt model offset time) then
        ⟨jiffiesAt model offset time, (calls model offset front).accepted ++ [time]⟩
      else calls model offset front := by
  rw [calls, List.foldl_append]
  rfl

theorem presses_append (front : List Nat) (time : Nat) :
    presses (front ++ [time]) =
      if Recent (presses front) time then presses front else presses front ++ [time] := by
  rw [presses, List.foldl_append]
  rfl

theorem fifty_toNat (model : DataModel) : (50 : ULong model).toNat = 50 := by
  cases model <;> rfl

theorem accepts_iff {last jiffies : ULong model} :
    Accepts last jiffies ↔ 50 < (jiffies - last).toNat := by
  rw [Accepts, BitVec.lt_def, fifty_toNat]

theorem elapsed_toNat {press time : Nat} (h : press ≤ time) :
    (jiffiesAt model offset time - jiffiesAt model offset press).toNat =
      (time - press) % 2 ^ model.bits := by
  have hsum : time + offset = (time - press) + (press + offset) := by omega
  rw [jiffiesAt, jiffiesAt, hsum, BitVec.ofNat_add, BitVec.add_sub_cancel, BitVec.toNat_ofNat]

/-! ## The handler -/

theorem calls_last (times : List Nat) :
    (calls model offset times).last =
      ((calls model offset times).accepted.getLast?.map (jiffiesAt model offset)).getD 0 := by
  induction times using List.reverseRecOn with
  | nil => rfl
  | append_singleton front time ih =>
      rw [calls_append]
      split
      · simp
      · exact ih

theorem accepted_sublist (times : List Nat) :
    (calls model offset times).accepted.Sublist times := by
  induction times using List.reverseRecOn with
  | nil => exact List.Sublist.slnil
  | append_singleton front time ih =>
      rw [calls_append]
      split
      · exact ih.append (List.Sublist.refl _)
      · exact ih.trans (List.sublist_append_left _ _)

theorem recent_iff_last {accepted : List Nat} (hsorted : accepted.Pairwise (· ≤ ·)) {press : Nat}
    (hlast : accepted.getLast? = some press) (time : Nat) :
    Recent accepted time ↔ time ≤ press + 50 := by
  obtain ⟨front, rfl⟩ := List.getLast?_eq_some_iff.mp hlast
  constructor
  · rintro ⟨other, hmem, hrecent⟩
    have hle : other ≤ press := by
      rcases List.mem_append.mp hmem with hfront | hother
      · exact (List.pairwise_append.mp hsorted).2.2 other hfront press (List.mem_singleton_self _)
      · exact le_of_eq (List.mem_singleton.mp hother)
    omega
  · intro hrecent
    exact ⟨press, by simp, hrecent⟩

/-- One call is decided as it should be when the counter tells its time. -/
theorem decision_iff_tells {front : List Nat} {time : Nat}
    (hsorted : (front ++ [time]).Pairwise (· ≤ ·)) :
    (¬ Accepts (calls model offset front).last (jiffiesAt model offset time) ↔
      Recent (calls model offset front).accepted time) ↔
      Tells model offset (calls model offset front).accepted.getLast? time := by
  obtain ⟨hfront, -, hbefore⟩ := List.pairwise_append.mp hsorted
  have hsub := @accepted_sublist model offset front
  rw [calls_last, accepts_iff]
  cases hlast : (calls model offset front).accepted.getLast? with
  | none =>
      rw [List.getLast?_eq_none_iff] at hlast
      have hnone : ¬ Recent (calls model offset front).accepted time := by
        simp [Recent, hlast]
      have hzero : (jiffiesAt model offset time - 0).toNat = (time + offset) % 2 ^ model.bits := by
        rw [jiffiesAt, sub_zero, BitVec.toNat_ofNat]
      rw [iff_false_right hnone, not_not, Tells, Option.map_none, Option.getD_none, hzero]
  | some press =>
      have hpress : press ≤ time :=
        hbefore press (hsub.subset (List.mem_of_getLast? hlast)) time (List.mem_singleton_self _)
      have hrange := model.two_pow_bits
      rw [recent_iff_last (hfront.sublist hsub) hlast, Tells, Option.map_some, Option.getD_some,
        elapsed_toNat hpress]
      by_cases hrecent : time ≤ press + 50
      · have hsmall : (time - press) % 2 ^ model.bits = time - press :=
          Nat.mod_eq_of_lt (by omega)
        rw [hsmall]
        omega
      · omega

theorem accepted_eq_presses {times : List Nat} (h : Debounces model offset times) :
    (calls model offset times).accepted = presses times := by
  induction times using List.reverseRecOn with
  | nil => rfl
  | append_singleton front time ih =>
      obtain ⟨hfront, hlast⟩ := atEach_append.mp h
      rw [calls_append, presses_append, ← ih hfront]
      by_cases haccepts : Accepts (calls model offset front).last (jiffiesAt model offset time)
      · rw [if_pos haccepts, if_neg fun hrecent => hlast.mpr hrecent haccepts]
      · rw [if_neg haccepts, if_pos (hlast.mp haccepts)]

/--
The handler debounces when the counter is beyond 50 at every call before the first
press, and no later call falls within 50 ticks after a wrap since the last press.
-/
theorem debounces_iff (model : DataModel) (offset : Nat) (times : List Nat)
    (hsorted : times.Pairwise (· ≤ ·)) :
    Debounces model offset times ↔
      AtEach (fun front time => Tells model offset (presses front).getLast? time) times := by
  refine atEach_iff_of_agree fun front time hpre hfront => ?_
  rw [← accepted_eq_presses hfront]
  exact decision_iff_tells (hsorted.sublist hpre.sublist)

/-- The test of the handler in the model of the whole driver. -/
theorem handler_of_debounce {P : Type*} {s : State P} {jiffies : U32} (h : s.handler = .idle) :
    (s.debounce jiffies).handler = .raise ↔ @Accepts .ilp32 s.last jiffies := by
  unfold State.debounce
  split
  case isTrue haccepts => exact iff_of_true rfl haccepts
  case isFalse hignored =>
    rw [h]
    exact iff_of_false (by simp) hignored

/-- A first press within 50 ticks after the counter has read 0. -/
def pressAtStart : List Nat := [10]

/-- On 32 bits, two presses a wrap of the counter and 20 ticks apart. -/
def pressAfterWrap : List Nat := [100, 4294967416]

theorem early_press_ignored :
    (calls .ilp32 0 pressAtStart).accepted = [] ∧ presses pressAtStart = [10] ∧
      ¬ Debounces .ilp32 0 pressAtStart := by
  decide

theorem press_after_wrap_ignored :
    (calls .ilp32 0 pressAfterWrap).accepted = [100] ∧
      presses pressAfterWrap = [100, 4294967416] ∧
      ¬ Debounces .ilp32 0 pressAfterWrap := by
  decide

/-- The counter starts 300 seconds before its wrap, at 100 ticks a second. -/
theorem presses_across_boot_wrap :
    Debounces .ilp32 (2 ^ 32 - 30000) [5, 20, 60, 29990, 30050] :=
  (debounces_iff .ilp32 (2 ^ 32 - 30000) [5, 20, 60, 29990, 30050] (by decide)).mpr (by decide)

end FarsightDriver.Key
