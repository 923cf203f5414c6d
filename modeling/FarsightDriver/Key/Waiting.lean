import FarsightDriver.Foundation.Sleepers
import FarsightDriver.Key.Basic

/-!
# Readers asleep on `readque`

`myread` waits by `wait_event_interruptible` and `myhandler` wakes `readque`
between setting `keyflag` and updating `last`.  The wait is taken apart into its
tests, the registration and the sleep.
-/

namespace FarsightDriver.Key

open FarsightDriver.Foundation

variable {P : Type*} [DecidableEq P]

def Pc.waits : Pc → Bool
  | .wait _ => true
  | _ => false

def effect (s : State P) : Label P → Sleepers.Effect P
  | .call p _ => .enter p
  | .tick p => if (s.pc p).waits then .leave p else .other
  | .signal p => .interrupt p
  | .raise => .raise
  | .finish _ => .afterWake
  | .irq _ => .other

variable {s next : State P}

theorem waits_goto (s : State P) (p : P) (pc : Pc) :
    (fun q => ((s.goto p pc).pc q).waits) =
      Function.update (fun q => (s.pc q).waits) p pc.waits := by
  funext q
  by_cases hq : q = p
  · subst hq
    simp [State.goto]
  · simp [State.goto, hq]

omit [DecidableEq P] in
theorem keyflag_debounce (s : State P) (jiffies : U32) :
    (s.debounce jiffies).keyflag = s.keyflag := by
  unfold State.debounce
  split <;> rfl

omit [DecidableEq P] in
theorem pc_debounce (s : State P) (jiffies : U32) : (s.debounce jiffies).pc = s.pc := by
  unfold State.debounce
  split <;> rfl

omit [DecidableEq P] in
theorem effect_other {p : P} (hpc : (s.pc p).waits = false) : effect s (.tick p) = .other := by
  simp [effect, hpc]

theorem waits_after {label : Label P} (hstep : step s label = some next) :
    (fun q => (next.pc q).waits) = (effect s label).after fun q => (s.pc q).waits := by
  have hsame {p : P} (pc : Pc) (hold : (s.pc p).waits = false) (hnew : pc.waits = false) :
      (fun q => ((s.goto p pc).pc q).waits) = fun q => (s.pc q).waits :=
    (waits_goto s p pc).trans (Function.update_eq_self_iff.mpr (hnew.trans hold.symm))
  cases step_cases hstep with
  | debounced => rw [pc_debounce]; rfl
  | raised | finished => rfl
  | called hpc => exact waits_goto s _ _
  | woken hpc | signalled hpc =>
      simp only [effect, hpc, Pc.waits, if_true]
      exact waits_goto s _ _
  | @told p writable ticket hpc =>
      have hout : (s.pc p).waits = false := by rw [hpc]; rfl
      rw [effect_other hout]
      exact hsame _ hout rfl
  | @cleared p byte ticket hpc =>
      have hout : (s.pc p).waits = false := by rw [hpc]; rfl
      rw [effect_other hout]
      exact hsame .idle hout rfl

theorem enters {label : Label P} {p : P} (hstep : step s label = some next)
    (heffect : effect s label = .enter p) :
    (s.pc p).waits = false ∧ next.keyflag = s.keyflag := by
  cases step_cases hstep with
  | called hpc =>
      cases heffect
      exact ⟨by rw [hpc]; rfl, rfl⟩
  | woken hpc | told hpc | cleared hpc => simp [effect, hpc, Pc.waits] at heffect
  | debounced | raised | finished | signalled => cases heffect

theorem leaves {label : Label P} {p : P} (hstep : step s label = some next)
    (heffect : effect s label = .leave p ∨ effect s label = .interrupt p) :
    (s.pc p).waits = true ∧ next.keyflag = s.keyflag := by
  cases step_cases hstep with
  | woken hpc | signalled hpc =>
      simp only [effect, hpc, Pc.waits, if_true] at heffect
      rcases heffect with heffect | heffect <;> cases heffect
      exact ⟨by rw [hpc]; rfl, rfl⟩
  | told hpc | cleared hpc => simp [effect, hpc, Pc.waits] at heffect
  | debounced | raised | finished | called =>
      rcases heffect with heffect | heffect <;> cases heffect

theorem lowers {label : Label P} (hstep : step s label = some next)
    (heffect : effect s label = .afterWake ∨ effect s label = .other)
    (hflag : next.keyflag ≠ 0) : s.keyflag ≠ 0 := by
  cases step_cases hstep with
  | debounced => rwa [keyflag_debounce] at hflag
  | finished | told => exact hflag
  | cleared => exact absurd rfl hflag
  | woken hpc => exact fun _ => by simp [effect, hpc, Pc.waits] at heffect
  | raised | called | signalled => rcases heffect with heffect | heffect <;> cases heffect

/-- Only `myhandler` sets `keyflag`, and it wakes `readque` before it is done. -/
def waits (P : Type*) [DecidableEq P] : Sleepers.Waits (system P) P where
  condition s := s.keyflag ≠ 0
  waiting s p := (s.pc p).waits
  effect := effect
  waiting_after := waits_after
  enters hstep heffect := by
    obtain ⟨hout, hflag⟩ := enters hstep heffect
    exact ⟨hout, by rw [hflag]⟩
  leaves hstep heffect := by
    obtain ⟨hin, hflag⟩ := leaves hstep heffect
    exact ⟨hin, by rw [hflag]⟩
  lowers hstep heffect hnext := by
    exact decide_eq_true (lowers hstep heffect (of_decide_eq_true hnext))
  init := by
    rintro s ⟨-, -, hidle, -⟩ p
    rw [hidle p]
    rfl

/-! ## A press is read -/

theorem keycode_of_reachable (h : (system P).Reachable s) (hflag : s.keyflag ≠ 0) :
    s.keycode = keyX := by
  have hinv : (s.keyflag ≠ 0 → s.keycode = keyX) ∧ (s.handler = .raise → s.keycode = keyX) := by
    refine h.invariant (fun s => (s.keyflag ≠ 0 → s.keycode = keyX) ∧
      (s.handler = .raise → s.keycode = keyX)) ?_ fun s label next hi hstep => ?_
    · rintro s ⟨hzero, hidle, -⟩
      exact ⟨fun hset => absurd hzero hset, fun hraise => by simp [hidle] at hraise⟩
    · obtain ⟨hcode, hraise⟩ := hi
      cases step_cases hstep with
      | @debounced jiffies hidle =>
          unfold State.debounce
          split
          · exact ⟨fun _ => rfl, fun _ => rfl⟩
          · exact ⟨hcode, hraise⟩
      | raised hhandler => exact ⟨fun _ => hraise hhandler, fun _ => hraise hhandler⟩
      | finished => exact ⟨hcode, nofun⟩
      | cleared => exact ⟨fun hset => absurd rfl hset, hraise⟩
      | called | woken | signalled | told => exact ⟨hcode, hraise⟩
  exact hinv.1 hflag

/-- The rest of the call after the wait: `put_user`, and the clearing of `keyflag`. -/
theorem rest_of_call {p : P} {writable : Bool} (h : (system P).Reachable s)
    (hflag : s.keyflag ≠ 0) (hpc : s.pc p = .wait writable) :
    ∃ finish, step s (.tick p) = some (s.leave p writable) ∧
      (system P).GuardedRun (fun s label => effect s label = .other) (s.leave p writable)
        [.tick p, .tick p] ∧
      (system P).run (s.leave p writable) [.tick p, .tick p] = some finish ∧
      finish.keyflag = 0 ∧ finish.reports = s.reports ++
        [⟨if writable then some (.ofInt 8 keyX) else none, ⟨s.left, s.accepted⟩⟩] := by
  let ticket : Tickets.Entry := ⟨s.left, s.accepted⟩
  let byte : Option (BitVec 8) := if writable then some (.ofInt 8 s.keycode) else none
  let told := (s.leave p writable).putUser p writable ticket
  have hleft : (s.leave p writable).pc p = .putUser writable ticket := Function.update_self ..
  have hbyte : told.pc p = .clear byte ticket := Function.update_self ..
  have hput : (system P).step (s.leave p writable) (.tick p) = some told := by
    simp only [system, step, hleft, told]
  have hclear : (system P).step told (.tick p) = some (told.clear p byte ticket) := by
    simp only [system, step, hbyte]
  refine ⟨told.clear p byte ticket, ?_, ?_, ?_, rfl, ?_⟩
  · simp only [step, hpc, if_pos hflag]
  · refine ⟨effect_other (by rw [hleft]; rfl), ?_⟩
    rw [hput]
    refine ⟨effect_other (by rw [hbyte]; rfl), ?_⟩
    rw [hclear]
    trivial
  · rw [System.run_cons, hput, Option.bind_some, System.run_cons, hclear]
    rfl
  · rw [← keycode_of_reachable h hflag]
    rfl

theorem press_reaches_reader {s : Sleepers.State (State P) P}
    (h : (Sleepers.system (waits P)).Reachable s) (hflag : s.base.keyflag ≠ 0) {p : P}
    {writable : Bool} (hpc : s.base.pc p = .wait writable) :
    (system P).Reachable s.base ∧
      (s.waking = false → s.place p = .asleep → s.runnable p = true) ∧
      ∃ labels next,
        (∀ label ∈ labels, label = .wakeUp ∨ label = .resume p ∨ label = .prepare p) ∧
        (Sleepers.system (waits P)).run s
          (labels ++ [.base (.tick p), .base (.tick p), .base (.tick p)]) = some next ∧
        next.base.keyflag = 0 ∧ next.base.reports = s.base.reports ++
          [⟨if writable then some (.ofInt 8 keyX) else none,
            ⟨s.base.left, s.base.accepted⟩⟩] := by
  have hbase := Sleepers.base_reachable h
  have hcondition : (waits P).condition s.base = true := decide_eq_true hflag
  have hwaiting : (waits P).waiting s.base p = true := by
    change (s.base.pc p).waits = true
    rw [hpc]
    rfl
  have heffect : (waits P).effect s.base (.tick p) = .leave p := by
    change effect s.base (.tick p) = _
    simp only [effect, hpc, Pc.waits, if_true]
  refine ⟨hbase, fun hwoken hasleep => ?_, ?_⟩
  · exact Sleepers.sleeper_runnable h hcondition hwoken hwaiting hasleep
  · obtain ⟨finish, hleave, hother, hrun, hflag', hreports⟩ := rest_of_call hbase hflag hpc
    obtain ⟨labels, next, hlabels, hnext, rfl⟩ :=
      Sleepers.served h hcondition hwaiting heffect hleave hother hrun
    exact ⟨labels, next, hlabels, hnext, hflag', hreports⟩

def resting (P : Type*) [DecidableEq P] : Sleepers.State (State P) P :=
  ⟨start, fun _ => .first, fun _ => false, fun _ => false, false⟩

/-- A reader goes to sleep, and the key is pressed. -/
def sleepThenPress : List (Sleepers.Label (Label Unit) Unit) :=
  [.base (.call () true), .start (), .prepare (), .sleep (), .base (.irq 51), .base .raise]

theorem pressed_sleeper_reads :
    ∃ s, (Sleepers.system (waits Unit)).run (resting Unit) sleepThenPress = some s ∧
      s.place () = .asleep ∧ ∃ labels next,
        (Sleepers.system (waits Unit)).run s labels = some next ∧ next.base.keyflag = 0 ∧
        next.base.reports = [⟨some (.ofInt 8 keyX), ⟨0, 1⟩⟩] := by
  have hrun : ((Sleepers.system (waits Unit)).run (resting Unit) sleepThenPress).isSome := rfl
  let s := ((Sleepers.system (waits Unit)).run (resting Unit) sleepThenPress).get hrun
  have hs : (Sleepers.system (waits Unit)).run (resting Unit) sleepThenPress = some s :=
    (Option.some_get hrun).symm
  have hreachable := System.reachable_of_run (S := Sleepers.system (waits Unit))
    ⟨start_init, rfl⟩ hs
  have hpressed : s.base.keyflag = 1 := rfl
  obtain ⟨-, -, labels, next, -, hnext, hflag, hreports⟩ :=
    press_reaches_reader hreachable (hpressed ▸ one_ne_zero)
      (show s.base.pc () = .wait true from rfl)
  exact ⟨s, hs, rfl, _, next, hnext, hflag, hreports⟩

end FarsightDriver.Key
