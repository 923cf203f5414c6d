import FarsightDriver.Foundation.Updates
import FarsightDriver.Pwm.Basic

/-!
# Concurrent calls of the PWM driver

`io_wr32` reads a register, changes the word and writes it back, and no lock
keeps the calls of several processes apart.  Switching on and off changes one bit
of `TCON` and survives this.  A note changes `TCON` three times, and a note of
another process that writes back what it has read in between undoes a part.
-/

namespace FarsightDriver.Pwm

open FarsightDriver.Foundation
open FarsightDriver.Foundation.Updates (Update serial Absorbing Allowed Calls)

/-- The calls of `io_wr32` in one `ioctl`. -/
def ioctlUpdates (cmd : U32) (arg : UserMemory) : List (Update Reg 32) :=
  if cmd = pwm1On then [(.tcon, ⟨1, 1⟩)]
  else if cmd = pwm1Off then [(.tcon, ⟨1, 0⟩)]
  else if cmd = pwm1Music then
    let (_, k) := copyFromUser arg
    if k = 0 then [(.tcon, ⟨1, 0⟩)]
    else
      [(.tcntb0, ⟨~~~0, k⟩), (.tcmpb0, ⟨~~~0, k / 2⟩), (.tcon, ⟨~~~1, 0x3 <<< 0⟩),
        (.tcon, ⟨1 <<< 1, 1 <<< 3⟩), (.tcon, ⟨1, 1⟩)]
  else []

/-- Without interruption an `ioctl` leaves what its updates make of the registers. -/
theorem ioctl_serial (unknown : Int) (cmd : U32) (arg : UserMemory) (regs : Regs) :
    (ioctl unknown cmd arg regs).2 = serial regs (ioctlUpdates cmd arg) := by
  unfold ioctl ioctlUpdates
  split_ifs with hon hoff hmusic
  · rfl
  · rfl
  · dsimp only
    split_ifs <;> rfl
  · rfl

/-! ## Notes -/

def IsNote (cmd : U32) (arg : UserMemory) : Prop := cmd = pwm1Music ∧ (copyFromUser arg).2 ≠ 0

def period (k : U32) : List (Update Reg 32) :=
  [(.tcntb0, ⟨~~~0, k⟩), (.tcmpb0, ⟨~~~0, k / 2⟩)]

def reset : Update Reg 32 := (.tcon, ⟨~~~1, 0x3 <<< 0⟩)

def reload : Update Reg 32 := (.tcon, ⟨1 <<< 1, 1 <<< 3⟩)

def start : Update Reg 32 := (.tcon, ⟨1, 1⟩)

theorem ioctlUpdates_note {cmd : U32} {arg : UserMemory} (h : IsNote cmd arg) :
    ioctlUpdates cmd arg = period (copyFromUser arg).2 ++ [reset] ++ [reload, start] := by
  obtain ⟨rfl, hk⟩ := h
  have hon : pwm1Music ≠ pwm1On := by decide
  have hoff : pwm1Music ≠ pwm1Off := by decide
  rw [ioctlUpdates, if_neg hon, if_neg hoff, if_pos rfl]
  exact if_neg hk

theorem reset_apply (data : U32) : reset.2.apply data = 3 := by
  refine BitVec.eq_of_getLsbD_eq fun i hi => ?_
  by_cases h : i = 0
  · subst h
    exact Masked.getLsbD_of_set (by decide) data
  · have hnot : reset.2.clear.getLsbD i = (decide (i < 32) && !(1#32).getLsbD i) :=
      BitVec.getLsbD_not
    have hclear : reset.2.clear.getLsbD i = true := by
      rw [hnot, BitVec.getLsbD_one]
      simp [hi, h]
    rw [Masked.getLsbD_apply, hclear, Bool.not_true, Bool.and_false, Bool.false_or]
    rfl

theorem serial_reset (regs : Regs) (front : List (Update Reg 32)) :
    serial regs (front ++ [reset]) .tcon = 3 := by
  rw [Updates.serial_append]
  exact (Masked.store_self ..).trans (reset_apply _)

theorem serial_reload_start {regs : Regs} (h : regs .tcon = 3) :
    serial regs [reload, start] .tcon = 9 := by
  have hreload : reload.2.store .tcon regs .tcon = 9 := by
    rw [Masked.store_self, h]
    decide
  have hstart : start.2.apply 9 = 9 := by decide
  exact (Masked.store_self ..).trans ((congrArg start.2.apply hreload).trans hstart)

/-- A note leaves the timer running and reloading. -/
theorem serial_note {cmd : U32} {arg : UserMemory} (h : IsNote cmd arg) (regs : Regs) :
    serial regs (ioctlUpdates cmd arg) .tcon = 9 := by
  rw [ioctlUpdates_note h, Updates.serial_append_list]
  exact serial_reload_start (serial_reset regs _)

/-! ## Calls of several processes -/

theorem ioctlUpdates_cases {cmd : U32} {arg : UserMemory} (h : ¬ IsNote cmd arg) :
    ∀ update ∈ ioctlUpdates cmd arg, ∃ bit, update = (.tcon, ⟨1, bit⟩) ∧ (bit = 0 ∨ bit = 1) := by
  unfold ioctlUpdates
  split_ifs with hon hoff hmusic
  · simp
  · simp
  · dsimp only
    split_ifs with hk
    · simp
    · exact absurd ⟨hmusic, hk⟩ h
  · simp

/-- The processes make these calls. -/
def Called (issued : U32 → UserMemory → Prop) (program : List (Update Reg 32)) : Prop :=
  ∃ cmd arg, issued cmd arg ∧ program = ioctlUpdates cmd arg

theorem called_absorbing {issued : U32 → UserMemory → Prop}
    (h : ∀ cmd arg, issued cmd arg → ¬ IsNote cmd arg) : Absorbing (Called issued) := by
  have hswitch : ∀ update, Allowed (Called issued) update →
      ∃ bit, update = (Reg.tcon, ⟨1, bit⟩) ∧ (bit = 0 ∨ bit = 1) := by
    rintro update ⟨program, ⟨cmd, arg, hissued, rfl⟩, hmem⟩
    exact ioctlUpdates_cases (h cmd arg hissued) update hmem
  intro update update' hallowed hallowed' _
  obtain ⟨bit, rfl, -⟩ := hswitch update hallowed
  obtain ⟨bit', rfl, hbit'⟩ := hswitch update' hallowed'
  refine Updates.absorbs_of_covers fun i hi => .inl ?_
  rcases hbit' with rfl | rfl <;> simpa using hi

/-- `p` starts the timer with the word that it has read before `q` has set the reload. -/
theorem overtaken_note {P : Type} [DecidableEq P] {p q : P} (hpq : p ≠ q)
    {issued : U32 → UserMemory → Prop} {cmd : U32} {arg : UserMemory} (hissued : issued cmd arg)
    (hnote : IsNote cmd arg) (regs : Regs) :
    ∃ labels, ∃ s : Updates.State Reg P 32,
      (Updates.system regs).run (Updates.resting regs) labels = some s ∧
        labels.filterMap Updates.Label.called =
          [(p, ioctlUpdates cmd arg), (q, ioctlUpdates cmd arg)] ∧
        (Updates.system regs).ReachableWith (Calls (Called issued)) s ∧ (∀ r, s.todo r = []) ∧
        s.mem .tcon = 3 ∧ serial regs s.stores .tcon = 9 := by
  have hp : ioctlUpdates cmd arg =
      (period (copyFromUser arg).2 ++ [reset, reload]) ++ start :: [] := ioctlUpdates_note hnote
  have hq : ioctlUpdates cmd arg = (period (copyFromUser arg).2 ++ [reset]) ++ [reload, start] :=
    ioctlUpdates_note hnote
  obtain ⟨labels, s, hrun, hcalled, htodo, hstores, hmem⟩ :=
    Updates.overtaken hpq (period (copyFromUser arg).2 ++ [reset, reload]) []
      (period (copyFromUser arg).2 ++ [reset]) [reload, start] start regs
  rw [← hp, ← hq] at hcalled
  have h : (Updates.system regs).ReachableWith (Calls (Called issued)) s := by
    refine Updates.reachable_run (.init (Updates.resting_init regs)) hrun ?_
    rw [hcalled]
    simpa using ⟨cmd, arg, hissued, rfl⟩
  have hread : ∀ front, serial regs (front ++ (period (copyFromUser arg).2 ++ [reset])) .tcon = 3 :=
    fun front => List.append_assoc front _ _ ▸ serial_reset regs _
  have hstart : start.2.apply 3 = 3 := by decide
  have hstart' : start.2.apply 9 = 9 := by decide
  refine ⟨labels, s, hrun, hcalled, h, htodo, ?_, ?_⟩
  · have hregister : Reg.tcon = start.1 := rfl
    rw [hmem, Updates.serial_nil, hregister, Function.update_self]
    exact (congrArg start.2.apply (hread _)).trans hstart
  · rw [hstores, List.append_nil, Updates.serial_append, Updates.serial_append_list]
    exact (Masked.store_self ..).trans
      ((congrArg start.2.apply (serial_reload_start (hread _))).trans hstart')

/--
Exactly as long as nobody plays a note, the registers are what the stores give
one after the other.  When any two processes play one note each, both calls may return
with the timer not reloading, though each note alone makes it reload.
-/
theorem calls_serial_iff {P : Type} [DecidableEq P] [Nontrivial P]
    (issued : U32 → UserMemory → Prop) :
    ((∀ (regs : Regs) (s : Updates.State Reg P 32),
        (Updates.system regs).ReachableWith (Calls (Called issued)) s →
          s.mem = serial regs s.stores) ↔
      ∀ cmd arg, issued cmd arg → ¬ IsNote cmd arg) ∧
    ∀ cmd arg, issued cmd arg → IsNote cmd arg → ∀ regs : Regs,
      (∀ unknown, (ioctl unknown cmd arg regs).2 .tcon = 9) ∧
        ∀ p q : P, p ≠ q → ∃ labels, ∃ s : Updates.State Reg P 32,
          (Updates.system regs).run (Updates.resting regs) labels = some s ∧
            labels.filterMap Updates.Label.called =
              [(p, ioctlUpdates cmd arg), (q, ioctlUpdates cmd arg)] ∧
            (Updates.system regs).ReachableWith (Calls (Called issued)) s ∧
            (∀ p, s.todo p = []) ∧ s.mem .tcon = 3 := by
  obtain ⟨p, q, hpq⟩ := exists_pair_ne P
  refine ⟨⟨fun hserial cmd arg hissued hnote => ?_, fun hquiet regs s h => ?_⟩,
    fun cmd arg hissued hnote regs => ⟨fun unknown => ?_, fun p q hpq => ?_⟩⟩
  · obtain ⟨-, s, -, -, h, -, hmem, hstores⟩ := overtaken_note hpq hissued hnote fun _ => 0
    have hregister := congrFun (hserial _ s h) .tcon
    rw [hmem, hstores] at hregister
    exact absurd hregister (by decide)
  · exact Updates.mem_eq_serial (called_absorbing hquiet) h
  · rw [ioctl_serial]
    exact serial_note hnote regs
  · obtain ⟨labels, s, hrun, hcalled, h, htodo, hmem, -⟩ :=
      overtaken_note hpq hissued hnote regs
    exact ⟨labels, s, hrun, hcalled, h, htodo, hmem⟩

/-- Two processes that may play any note. -/
theorem calls_serial_iff_bool : ¬ ∀ (regs : Regs) (s : Updates.State Reg Bool 32),
    (Updates.system regs).ReachableWith (Calls (Called fun _ _ => True)) s →
      s.mem = serial regs s.stores := by
  intro hserial
  have hnote : IsNote pwm1Music [1] := ⟨rfl, by decide⟩
  exact (calls_serial_iff fun _ _ => True).1.mp hserial pwm1Music [1] trivial hnote

end FarsightDriver.Pwm
