import FarsightDriver.Exclusive.Basic

/-!
# Exclusive open under a spinlock

`myopen` tests and clears `avilable` between `spin_lock` and `spin_unlock`;
`myclose` sets it back without the lock.  Each lock operation and each access
to `avilable` is one step of the process that makes it.
-/

namespace FarsightDriver.Exclusive.Spinlock

open FarsightDriver.Foundation

/-- What a process executes next; `idle` and `opened` are outside any call. -/
inductive Pc where
  | idle
  | spinLock
  | test
  | store
  | unlockOk
  | unlockBusy
  | opened
  | closeStore
  deriving DecidableEq, Repr

abbrev State (P : Type*) := Exclusive.State (Option P) P Pc

variable {P : Type*} [DecidableEq P]

def step (s : State P) (p : P) : Option (State P) :=
  match s.pc p with
  | .idle => some (s.goto p .spinLock)
  | .spinLock =>
      if s.lock = none then some { s.goto p .test with lock := some p } else none
  | .test => some (s.goto p (if 1 = s.avilable then .store else .unlockBusy))
  | .store => some { s.goto p .unlockOk with avilable := 0 }
  | .unlockOk => some { s.returns p 0 .opened with lock := none }
  | .unlockBusy => some { s.returns p (-ebusy) .idle with lock := none }
  | .opened => some (s.goto p .closeStore)
  | .closeStore => some { s.returns p 0 .idle with avilable := 1 }

/-- `setup_mydev` leaves the device available and the lock free. -/
def system (P : Type*) [DecidableEq P] : System (State P) P where
  init s := s.lock = none ∧ s.avilable = 1 ∧ ∀ p, s.pc p = .idle
  step := step

def Pc.critical : Pc → Bool
  | .test | .store | .unlockOk | .unlockBusy => true
  | _ => false

def Pc.phase : Pc → TestAndSet.Phase
  | .store => .won
  | .unlockOk | .opened | .closeStore => .owner
  | _ => .out

/-- The device is held from the store in `myopen` to the store in `myclose`. -/
def Holds (s : State P) (p : P) : Prop := (s.pc p).phase = .owner

def Quiescent (s : State P) : Prop := ∀ p, s.pc p = .idle ∨ s.pc p = .opened

def action (s : State P) (p : P) : TestAndSet.Action P :=
  match s.pc p with
  | .test => .test p
  | .store => .set p
  | .closeStore => .release p
  | _ => .skip

theorem step_others {s next : State P} {p q : P} (hstep : step s p = some next) (hq : q ≠ p) :
    next.pc q = s.pc q := by
  unfold step at hstep
  cases hpc : s.pc p <;>
    simp only [hpc, Option.some.injEq, Option.ite_none_right_eq_some] at hstep
  all_goals first
    | (subst hstep; exact Function.update_of_ne hq _ _)
    | (obtain ⟨-, rfl⟩ := hstep; exact Function.update_of_ne hq _ _)

theorem guarded_step {s next : State P} {p : P} (h : s.Guarded Pc.critical)
    (hstep : step s p = some next) : next.Guarded Pc.critical := by
  unfold step at hstep
  cases hpc : s.pc p <;>
    simp only [hpc, Option.some.injEq, Option.ite_none_right_eq_some] at hstep
  case spinLock =>
    obtain ⟨hfree, rfl⟩ := hstep
    exact h.acquire hfree rfl
  case unlockOk =>
    subst hstep
    exact h.release hpc rfl rfl 0
  case unlockBusy =>
    subst hstep
    exact h.release hpc rfl rfl (-ebusy)
  case test =>
    subst hstep
    exact h.goto hpc (by split <;> rfl)
  all_goals
    subst hstep
    exact h.goto hpc rfl

omit [DecidableEq P] in
theorem critical_of_won (pc : Pc) (h : pc.phase = .won) : pc.critical = true := by
  cases pc <;> first | rfl | contradiction

omit [DecidableEq P] in
theorem undisturbed {s : State P} (h : s.Guarded Pc.critical) (p : P) :
    TestAndSet.Undisturbed (s.abstract Pc.phase) (action s p) := by
  cases hpc : s.pc p <;> simp only [action, hpc] <;> try trivial
  exact h.undisturbed critical_of_won hpc rfl (by decide)

theorem abstract_step {s next : State P} {p : P} (hstep : step s p = some next) :
    (TestAndSet.system P).step (s.abstract Pc.phase) (action s p) =
      some (next.abstract Pc.phase) := by
  unfold step at hstep
  cases hpc : s.pc p <;>
    simp only [hpc, Option.some.injEq, Option.ite_none_right_eq_some] at hstep <;>
    simp only [action, hpc]
  case test =>
    subst hstep
    exact s.abstract_test hpc rfl rfl rfl
  case store =>
    subst hstep
    exact s.abstract_set hpc rfl rfl
  case closeStore =>
    subst hstep
    exact s.abstract_release hpc rfl rfl
  case spinLock =>
    obtain ⟨-, rfl⟩ := hstep
    exact s.abstract_other hpc rfl rfl rfl
  all_goals
    subst hstep
    exact s.abstract_other hpc rfl rfl rfl

def simulation : System.Simulation (system P) (fun _ _ => True)
    (TestAndSet.system P) TestAndSet.Undisturbed where
  inv s := s.Guarded Pc.critical
  abs s := s.abstract Pc.phase
  label := action
  init s hs := by
    obtain ⟨hlock, havail, hidle⟩ := hs
    exact ⟨.init hlock fun q => congrArg Pc.critical (hidle q),
      s.abstract_init havail fun q => congrArg Pc.phase (hidle q)⟩
  step s p next h _ hstep := ⟨guarded_step h hstep, undisturbed h p, abstract_step hstep⟩

theorem exclusive_of_reachable {s : State P} (h : (system P).Reachable s) :
    TestAndSet.Exclusive (s.abstract Pc.phase) :=
  TestAndSet.exclusive_of_reachable (simulation.reachable h)

theorem solo_open {s : State P} {p : P} (hlock : s.lock = none) (havail : s.avilable = 1)
    (hp : s.pc p = .idle) :
    ∃ next, (system P).run s [p, p, p, p, p] = some next ∧ next.ret p = 0 ∧
      next.pc p = .opened := by
  exact ⟨_, by simp [system, step, State.goto, State.returns, hp, hlock, havail]; rfl,
    by simp, by simp⟩

theorem spinlock_open_exclusive {s : State P} (h : (system P).Reachable s) :
    (∀ p q, Holds s p → Holds s q → p = q) ∧
    (∀ p, s.pc p = .unlockOk ∨ s.pc p = .unlockBusy → s.lock = some p) ∧
    (Quiescent s →
      (s.avilable = 1 ↔ ∀ p, ¬ Holds s p) ∧
      ((∀ p, ¬ Holds s p) → ∀ p, ∃ next,
        (system P).run s [p, p, p, p, p] = some next ∧ next.ret p = 0 ∧
          next.pc p = .opened)) := by
  have hguard := simulation.inv_of_reachable h
  have hexcl := exclusive_of_reachable h
  have havail := s.avilable_iff hexcl
  refine ⟨fun p q => hexcl.owner_unique p q, ?_, fun hquiet => ⟨havail, ?_⟩⟩
  · intro p hp
    rcases hp with hp | hp <;> exact State.Guarded.owner hguard hp rfl
  · intro hfree p
    have hlock : s.lock = none := by
      refine State.Guarded.free hguard fun q => ?_
      rcases hquiet q with hq | hq <;> rw [hq] <;> rfl
    refine solo_open hlock (havail.mpr hfree) ?_
    rcases hquiet p with hp | hp
    · exact hp
    · exact absurd (by rw [Holds, hp]; rfl) (hfree p)

/-- Process 0 opens, process 1 is refused, process 0 closes, and process 2 opens. -/
theorem spinlock_three_callers :
    ∃ s next, (system (Fin 3)).run ⟨none, 1, fun _ => .idle, fun _ => 0⟩
        [0, 0, 0, 0, 0, 1, 1, 1, 1, 0, 0] = some s ∧
      s.ret 1 = -ebusy ∧ s.ret 0 = 0 ∧ s.avilable = 1 ∧
      (system (Fin 3)).run s [2, 2, 2, 2, 2] = some next ∧ next.ret 2 = 0 ∧
      next.pc 2 = .opened ∧ ∀ p, Holds next p → p = 2 := by
  have hrun : ∃ s, (system (Fin 3)).run ⟨none, 1, fun _ => .idle, fun _ => 0⟩
      [0, 0, 0, 0, 0, 1, 1, 1, 1, 0, 0] = some s ∧
      s.ret 1 = -ebusy ∧ s.ret 0 = 0 ∧ ∀ p, s.pc p = .idle := by
    refine ⟨_, rfl, rfl, rfl, ?_⟩
    decide
  obtain ⟨s, hrun, hrefused, hopened, hidle⟩ := hrun
  have hreach : (system (Fin 3)).Reachable s :=
    System.reachable_of_run ⟨rfl, rfl, fun _ => rfl⟩ hrun
  obtain ⟨-, -, hquiet⟩ := spinlock_open_exclusive hreach
  obtain ⟨havail, hopen⟩ := hquiet fun p => .inl (hidle p)
  have hfree : ∀ p, ¬ Holds s p := fun p => by simp [Holds, hidle p, Pc.phase]
  obtain ⟨next, hnext, hret, hpc⟩ := hopen hfree 2
  obtain ⟨hone, -⟩ := spinlock_open_exclusive (hreach.run hnext)
  refine ⟨s, next, hrun, hrefused, hopened, havail.mpr hfree, hnext, hret, hpc, fun p hp => ?_⟩
  exact hone p 2 hp (by rw [Holds, hpc]; rfl)

end FarsightDriver.Exclusive.Spinlock
