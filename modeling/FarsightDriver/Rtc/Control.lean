import FarsightDriver.Foundation.Updates
import FarsightDriver.Rtc.Basic

/-!
# Control of the clock

`RTC_open` and `RTC_set` set the lowest bit of `RTCCON`, write the time and clear
the bit again.  No lock keeps two processes apart: one may clear the bit while
another still writes.  All of it is done by `io_wr32`, which reads a register,
changes the word and writes it back.
-/

namespace FarsightDriver.Rtc

open FarsightDriver.Foundation
open FarsightDriver.Foundation.Updates (Update serial Calls)

def control (on : Bool) : Update Reg 32 := (.rtccon, ⟨1, if on then 1 else 0⟩)

def timeWrite (field : Field) (value : U32) : Update Reg 32 := (field.reg, ⟨~~~0, value⟩)

theorem rtccon_ne_reg (field : Field) : Reg.rtccon ≠ field.reg := by
  cases field <;> exact nofun

/-- The calls of `io_wr32` in `RTC_open`. -/
def openUpdates : List (Update Reg 32) :=
  [control true, timeWrite .sec 0x00, timeWrite .min 0x11, timeWrite .hour 0x19,
    timeWrite .week 0x3, timeWrite .day 0x12, timeWrite .mon 0x05, timeWrite .year 0x16,
    control false]

/-- The calls of `io_wr32` in `RTC_set`, with what each of them finds in its field of `tData`. -/
def setUpdates (tData : RTCTimeData) : List (Update Reg 32) :=
  [control true, timeWrite .sec tData.bcdSec, timeWrite .min tData.bcdMin,
    timeWrite .hour tData.bcdHour, timeWrite .week tData.bcdDay, timeWrite .day tData.bcdWeek,
    timeWrite .mon tData.bcdMon, timeWrite .year tData.bcdYear, control false]

theorem rtcOpen_serial (regs : Regs) : rtcOpen regs = serial regs openUpdates := rfl

theorem rtcSet_serial (tData : RTCTimeData) (regs : Regs) :
    rtcSet tData regs = serial regs (setUpdates tData) := rfl

def Called (program : List (Update Reg 32)) : Prop :=
  program = openUpdates ∨ ∃ tData, program = setUpdates tData

/-- What comes after `control true`: writes of the time, and `control false`. -/
inductive Controlled : List (Update Reg 32) → Prop
  | off : Controlled [control false]
  | write (field : Field) (value : U32) {rest : List (Update Reg 32)} (h : Controlled rest) :
      Controlled (timeWrite field value :: rest)

theorem called_cases {program : List (Update Reg 32)} (h : Called program) :
    ∃ rest, program = control true :: rest ∧ Controlled rest := by
  obtain rfl | ⟨tData, rfl⟩ := h
  all_goals exact ⟨_, rfl, by repeat constructor⟩

/-- A process that is about to write the time does so with the bit set. -/
def WritesEnabled {P : Type} (s : Updates.State Reg P 32) : Prop :=
  ∀ p field value rest data, s.todo p = timeWrite field value :: rest →
    s.loaded p = some data → (s.mem .rtccon).getLsbD 0 = true

/-! ## One process -/

/-- Where a process is in its call. -/
def InCall (regs : Regs) (todo : List (Update Reg 32)) : Prop :=
  todo = [] ∨ (∃ rest, todo = control true :: rest ∧ Controlled rest) ∨
    Controlled todo ∧ (regs .rtccon).getLsbD 0 = true

theorem inCall_store {regs : Regs} {update : Update Reg 32} {rest : List (Update Reg 32)}
    (h : InCall regs (update :: rest)) (data : U32) :
    InCall (Function.update regs update.1 (update.2.apply data)) rest := by
  rcases h with hnil | ⟨rest', hstart, hrest⟩ | ⟨hcontrolled, hset⟩
  · contradiction
  · obtain ⟨rfl, rfl⟩ := List.cons.inj hstart
    refine .inr (.inr ⟨hrest, ?_⟩)
    have hregister : Function.update regs (control true).1 ((control true).2.apply data) .rtccon =
        (control true).2.apply data := Function.update_self ..
    rw [hregister]
    exact Masked.getLsbD_of_set (by decide) data
  · cases hcontrolled with
    | off => exact .inl rfl
    | write field value hrest =>
        refine .inr (.inr ⟨hrest, ?_⟩)
        rw [timeWrite, Function.update_of_ne (rtccon_ne_reg field)]
        exact hset

theorem enabled_of_inCall {regs : Regs} {field : Field} {value : U32}
    {rest : List (Update Reg 32)} (h : InCall regs (timeWrite field value :: rest)) :
    (regs .rtccon).getLsbD 0 = true := by
  rcases h with hnil | ⟨rest', hstart, -⟩ | ⟨-, hset⟩
  · contradiction
  · exact absurd (congrArg Prod.fst (List.cons.inj hstart).1).symm (rtccon_ne_reg field)
  · exact hset

section Runs

variable {P : Type} [DecidableEq P] {regs : Regs} {s next : Updates.State Reg P 32}

theorem step_inCall [Subsingleton P] (h : ∀ p, InCall s.mem (s.todo p))
    {label : Updates.Label Reg P 32} (hcalls : Calls Called s label)
    (hstep : Updates.step s label = some next) (q : P) : InCall next.mem (next.todo q) := by
  cases label with
  | call p program =>
      obtain rfl := Subsingleton.elim p q
      obtain ⟨rest, rfl, hrest⟩ := called_cases hcalls
      simp only [Updates.step] at hstep
      split at hstep
      · obtain rfl := Option.some.inj hstep
        rw [Updates.call_todo_self]
        exact .inr (.inl ⟨rest, rfl, hrest⟩)
      · cases hstep
  | load p =>
      simp only [Updates.step] at hstep
      split at hstep
      · exact Option.some.inj hstep ▸ h q
      · cases hstep
  | store p =>
      obtain rfl := Subsingleton.elim p q
      simp only [Updates.step] at hstep
      split at hstep
      · rename_i update rest data htodo _
        obtain rfl := Option.some.inj hstep
        rw [Updates.store_todo_self]
        exact inCall_store (htodo ▸ h p) data
      · cases hstep

theorem inCall_of_reachable [Subsingleton P]
    (h : (Updates.system regs).ReachableWith (Calls Called) s) (p : P) :
    InCall s.mem (s.todo p) := by
  refine h.invariant (fun s => ∀ p, InCall s.mem (s.todo p)) (fun start hinit p => ?_)
    (fun s label next hcall hcalls hstep p => step_inCall hcall hcalls hstep p) p
  exact .inl (hinit.2.1 p)

/-! ## Two processes -/

theorem serial_open_control (regs : Regs) :
    (serial regs openUpdates .rtccon).getLsbD 0 = false := by
  have hlast : openUpdates = openUpdates.dropLast ++ [control false] := rfl
  rw [hlast, Updates.serial_append]
  have hself := Masked.store_self (control false).2 (control false).1
    (serial regs openUpdates.dropLast)
  exact (congrArg (BitVec.getLsbD · 0) hself).trans
    (Masked.getLsbD_of_cleared (by decide) (by decide) _)

/-- `q` opens the clock, and clears the bit, between two accesses of `p`. -/
theorem overlapping_opens {p q : P} (hpq : p ≠ q) (regs : Regs) :
    ∃ s : Updates.State Reg P 32,
      (Updates.system regs).ReachableWith (Calls Called) s ∧ ¬ WritesEnabled s := by
  have hcalled : Called openUpdates := .inl rfl
  have hcall := Updates.reachable_call (.init (Updates.resting_init regs)) (p := p) rfl hcalled
  have hfirst : ((Updates.resting regs : Updates.State Reg P 32).call p openUpdates).todo p =
      [control true] ++ openUpdates.tail := Updates.call_todo_self ..
  obtain ⟨s₁, h₁, -, htodo₁, hloaded₁, -⟩ := Updates.alone hcall hfirst rfl
  have hidle : s₁.todo q = [] := by
    rw [htodo₁, Function.update_of_ne hpq.symm, Updates.call_todo_of_ne _ _ hpq.symm,
      Updates.resting_todo]
  have hwhole : (s₁.call q openUpdates).todo q = openUpdates ++ [] := Updates.call_todo_self ..
  obtain ⟨s₂, h₂, hmem₂, htodo₂, hloaded₂, -⟩ :=
    Updates.alone (Updates.reachable_call h₁ hidle hcalled) hwhole (congrFun hloaded₁ q)
  have htodo : s₂.todo p = timeWrite .sec 0x00 :: openUpdates.tail.tail := by
    rw [htodo₂, Function.update_of_ne hpq, Updates.call_todo_of_ne _ _ hpq, htodo₁,
      Function.update_self]
    rfl
  have hloaded : s₂.loaded p = none := (congrFun hloaded₂ p).trans (congrFun hloaded₁ p)
  refine ⟨s₂.load p (timeWrite .sec 0x00).1, Updates.reachable_load h₂ htodo hloaded,
    fun henabled => ?_⟩
  have hset := henabled p .sec 0x00 _ _ htodo (Updates.load_loaded_self ..)
  have hclear : (s₂.mem .rtccon).getLsbD 0 = false := hmem₂ ▸ serial_open_control _
  exact absurd (hclear.symm.trans hset) Bool.false_ne_true

/--
The time is only ever written with the bit of `RTCCON` set if and only if there is
one process: another that opens the clock clears the bit in between.
-/
theorem writes_enabled_iff :
    (∀ (regs : Regs) (s : Updates.State Reg P 32),
        (Updates.system regs).ReachableWith (Calls Called) s → WritesEnabled s) ↔
      Subsingleton P := by
  constructor
  · intro henabled
    refine ⟨fun p q => ?_⟩
    by_contra hpq
    obtain ⟨s, h, hdisabled⟩ := overlapping_opens hpq fun _ => 0
    exact hdisabled (henabled _ s h)
  · intro _ regs s h p field value rest data htodo _
    exact enabled_of_inCall (htodo ▸ inCall_of_reachable h p)

end Runs

end FarsightDriver.Rtc
