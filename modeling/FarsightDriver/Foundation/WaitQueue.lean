import FarsightDriver.Foundation.System

/-!
# Wait queues

A process that waits for a condition registers first, then checks the
condition, and sleeps when it finds it false.  A process that may have made the
condition true wakes everybody who is registered, in a later step.  A sleeper
that has not been made runnable while the condition holds is a lost wake-up;
in this discipline there is none unless a waker is on its way.
-/

namespace FarsightDriver.Foundation.WaitQueue

/-- `raised` is between raising the condition and waking the waiters. -/
inductive Phase where
  | out
  | checking
  | asleep
  | raised
  deriving DecidableEq, Repr

structure State (P : Type*) where
  condition : Bool
  registered : P → Bool
  runnable : P → Bool
  phase : P → Phase

/-- `raise` and `lower` carry the value that the condition has after them. -/
inductive Action (P : Type*) where
  | skip
  | prepare (p : P)
  | sleep (p : P)
  | resume (p : P)
  | leave (p : P)
  | raise (p : P) (condition : Bool)
  | lower (condition : Bool)
  | wake (p : P)

variable {P : Type*} [DecidableEq P]

def State.move (s : State P) (p : P) (phase : Phase) : State P :=
  { s with phase := Function.update s.phase p phase }

theorem State.move_self (s : State P) {p : P} {phase : Phase} (h : s.phase p = phase) :
    s.move p phase = s := by
  subst h
  simp [State.move]

def State.prepare (s : State P) (p : P) : State P :=
  { s.move p .checking with
    registered := Function.update s.registered p true
    runnable := Function.update s.runnable p false }

def State.leave (s : State P) (p : P) : State P :=
  { s.move p .out with registered := Function.update s.registered p false }

def State.wake (s : State P) (p : P) : State P :=
  { s.move p .out with runnable := fun q => s.runnable q || s.registered q }

def system (P : Type*) [DecidableEq P] : System (State P) (Action P) where
  init s := ∀ p, s.phase p = .out
  step s
    | .skip => some s
    | .prepare p => if s.phase p = .out then some (s.prepare p) else none
    | .sleep p =>
        if s.phase p = .checking ∧ s.condition = false then some (s.move p .asleep)
        else none
    | .resume p =>
        if s.phase p = .asleep ∧ s.runnable p = true then some (s.move p .out) else none
    | .leave p =>
        if s.phase p = .checking ∨ s.phase p = .asleep then some (s.leave p) else none
    | .raise p condition =>
        if s.phase p = .out then some { s.move p .raised with condition := condition }
        else none
    | .lower condition =>
        if condition = true → s.condition = true then
          some { s with condition := condition }
        else none
    | .wake p => if s.phase p = .raised then some (s.wake p) else none

def Registered (s : State P) : Prop :=
  ∀ p, s.phase p = .checking ∨ s.phase p = .asleep → s.registered p = true

def NoLostWakeup (s : State P) : Prop :=
  s.condition = true →
    (∀ p, s.phase p = .asleep → s.runnable p = true) ∨ ∃ w, s.phase w = .raised

structure Sound (s : State P) : Prop where
  registered : Registered s
  no_lost_wakeup : NoLostWakeup s

theorem NoLostWakeup.move {s : State P} {p : P} {phase : Phase} (h : NoLostWakeup s)
    (hp : s.phase p ≠ .raised) (hphase : phase ≠ .asleep) :
    NoLostWakeup (s.move p phase) := by
  intro hcond
  rcases h hcond with hrun | ⟨w, hw⟩
  · left
    intro q hq
    by_cases hqp : q = p
    · subst hqp
      simp only [State.move, Function.update_self] at hq
      contradiction
    · refine hrun q ?_
      simpa [State.move, hqp] using hq
  · right
    refine ⟨w, ?_⟩
    have hwp : w ≠ p := by
      rintro rfl
      exact hp hw
    simpa [State.move, hwp] using hw

theorem Registered.move {s : State P} {p : P} {phase : Phase} (h : Registered s)
    (hphase : phase = .checking ∨ phase = .asleep → s.registered p = true) :
    Registered (s.move p phase) := by
  intro q hq
  by_cases hqp : q = p
  · subst hqp
    simp only [State.move, Function.update_self] at hq
    exact hphase hq
  · refine h q ?_
    simpa [State.move, hqp] using hq

theorem Sound.prepare {s : State P} {p : P} (h : Sound s) (hp : s.phase p = .out) :
    Sound (s.prepare p) := by
  constructor
  · intro q hq
    by_cases hqp : q = p
    · simp [State.prepare, hqp]
    · have hold : s.registered q = true := by
        refine h.registered q ?_
        simpa [State.prepare, State.move, hqp] using hq
      simpa [State.prepare, hqp] using hold
  · intro hcond
    have hmoved : NoLostWakeup (s.move p .checking) :=
      h.no_lost_wakeup.move (by simp [hp]) (by decide)
    rcases hmoved hcond with hrun | hraised
    · left
      intro q hq
      have hqp : q ≠ p := by
        rintro rfl
        simp [State.prepare, State.move] at hq
      have hrunq : s.runnable q = true := hrun q hq
      simpa [State.prepare, hqp] using hrunq
    · exact .inr hraised

theorem Sound.leave {s : State P} {p : P} (h : Sound s) (hp : s.phase p ≠ .raised) :
    Sound (s.leave p) := by
  constructor
  · intro q hq
    by_cases hqp : q = p
    · subst hqp
      simp [State.leave, State.move] at hq
    · have hold : s.registered q = true := by
        refine h.registered q ?_
        simpa [State.leave, State.move, hqp] using hq
      simpa [State.leave, hqp] using hold
  · exact h.no_lost_wakeup.move hp (by decide)

theorem Sound.wake {s : State P} {p : P} (h : Sound s) : Sound (s.wake p) := by
  have hreg : Registered (s.move p .out) := h.registered.move (by simp)
  constructor
  · exact hreg
  · intro _
    left
    intro q hq
    have hq' : s.registered q = true := hreg q (.inr hq)
    simp [State.wake, hq']

theorem Sound.sleep {s : State P} {p : P} (h : Sound s) (hp : s.phase p = .checking)
    (hcond : s.condition = false) : Sound (s.move p .asleep) := by
  constructor
  · exact h.registered.move fun _ => h.registered p (.inl hp)
  · intro htrue
    simp only [State.move, hcond] at htrue
    contradiction

theorem Sound.raise {s : State P} {p : P} (h : Sound s) (condition : Bool) :
    Sound { s.move p .raised with condition := condition } := by
  constructor
  · exact Registered.move h.registered (by simp)
  · intro _
    exact .inr ⟨p, by simp [State.move]⟩

theorem sound_step {s next : State P} {action : Action P} (h : Sound s)
    (hstep : (system P).step s action = some next) : Sound next := by
  cases action with
  | skip =>
      simp only [system, Option.some.injEq] at hstep
      exact hstep ▸ h
  | prepare p =>
      simp only [system, Option.ite_none_right_eq_some, Option.some.injEq] at hstep
      exact hstep.2 ▸ h.prepare hstep.1
  | sleep p =>
      simp only [system, Option.ite_none_right_eq_some, Option.some.injEq] at hstep
      exact hstep.2 ▸ h.sleep hstep.1.1 hstep.1.2
  | resume p =>
      simp only [system, Option.ite_none_right_eq_some, Option.some.injEq] at hstep
      obtain ⟨⟨hp, -⟩, rfl⟩ := hstep
      exact ⟨h.registered.move (by simp),
        h.no_lost_wakeup.move (by simp [hp]) (by decide)⟩
  | leave p =>
      simp only [system, Option.ite_none_right_eq_some, Option.some.injEq] at hstep
      obtain ⟨hp, rfl⟩ := hstep
      refine h.leave ?_
      rcases hp with hp | hp <;> rw [hp] <;> decide
  | raise p condition =>
      simp only [system, Option.ite_none_right_eq_some, Option.some.injEq] at hstep
      exact hstep.2 ▸ h.raise condition
  | lower condition =>
      simp only [system, Option.ite_none_right_eq_some, Option.some.injEq] at hstep
      obtain ⟨himp, rfl⟩ := hstep
      exact ⟨h.registered, fun hcond => h.no_lost_wakeup (himp hcond)⟩
  | wake p =>
      simp only [system, Option.ite_none_right_eq_some, Option.some.injEq] at hstep
      exact hstep.2 ▸ h.wake

theorem sound_of_reachable {s : State P} (h : (system P).Reachable s) : Sound s := by
  refine h.invariant Sound (fun s hout => ?_) fun _ _ _ => sound_step
  refine ⟨fun p hp => ?_, fun _ => .inl fun p hp => ?_⟩
  · simp [hout p] at hp
  · simp [hout p] at hp

end FarsightDriver.Foundation.WaitQueue
