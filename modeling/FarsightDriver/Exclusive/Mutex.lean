import FarsightDriver.Exclusive.Basic
import Mathlib.Data.Fintype.Basic

/-!
# Exclusive open under a mutex

`myopen` tests and clears `avilable` between `mutex_lock` and `mutex_unlock`.
`myclose` calls `mutex_unlock` where it would have to lock, and once more after
its store: it frees a mutex that it does not own, and so may let a second
opener into the section of a first one.
-/

namespace FarsightDriver.Exclusive.Mutex

open FarsightDriver.Foundation

inductive Pc where
  | idle
  | mutexLock
  | test
  | store
  | unlockOk
  | unlockBusy
  | opened
  | closeUnlock
  | closeStore
  | closeUnlockAgain
  deriving DecidableEq, Repr

abbrev State (P : Type*) := Exclusive.State (Option P) P Pc

variable {P : Type*} [DecidableEq P]

/-- `mutex_unlock` makes the mutex free whoever calls it. -/
def step (s : State P) (p : P) : Option (State P) :=
  match s.pc p with
  | .idle => some (s.goto p .mutexLock)
  | .mutexLock =>
      if s.lock = none then some { s.goto p .test with lock := some p } else none
  | .test => some (s.goto p (if 1 = s.avilable then .store else .unlockBusy))
  | .store => some { s.goto p .unlockOk with avilable := 0 }
  | .unlockOk => some { s.returns p 0 .opened with lock := none }
  | .unlockBusy => some { s.returns p (-ebusy) .idle with lock := none }
  | .opened => some (s.goto p .closeUnlock)
  | .closeUnlock => some { s.goto p .closeStore with lock := none }
  | .closeStore => some { s.goto p .closeUnlockAgain with avilable := 1 }
  | .closeUnlockAgain => some { s.returns p 0 .idle with lock := none }

def system (P : Type*) [DecidableEq P] : System (State P) P where
  init s := s.lock = none ∧ s.avilable = 1 ∧ ∀ p, s.pc p = .idle
  step := step

def Pc.critical : Pc → Bool
  | .test | .store | .unlockOk | .unlockBusy => true
  | _ => false

def Pc.phase : Pc → TestAndSet.Phase
  | .store => .won
  | .unlockOk | .opened | .closeUnlock | .closeStore => .owner
  | _ => .out

theorem step_others {s next : State P} {p q : P} (hstep : step s p = some next) (hq : q ≠ p) :
    next.pc q = s.pc q := by
  unfold step at hstep
  cases hpc : s.pc p <;>
    simp only [hpc, Option.some.injEq, Option.ite_none_right_eq_some] at hstep
  all_goals first
    | (subst hstep; exact Function.update_of_ne hq _ _)
    | (obtain ⟨-, rfl⟩ := hstep; exact Function.update_of_ne hq _ _)

/-- The device is held from the store in `myopen` to the store in `myclose`. -/
def Holds (s : State P) (p : P) : Prop := (s.pc p).phase = .owner

def Quiescent (s : State P) : Prop := ∀ p, s.pc p = .idle ∨ s.pc p = .opened

instance [Fintype P] (s : State P) : Decidable (Quiescent s) :=
  inferInstanceAs (Decidable (∀ _, _))

/-- The steps of a `myopen` that returns `-EBUSY`. -/
def Refusing (s : State P) (p : P) : Prop :=
  s.pc p = .idle ∨ s.pc p = .mutexLock ∨ (s.pc p = .test ∧ 1 ≠ s.avilable) ∨
    s.pc p = .unlockBusy

/-- No `myclose` unlocks while an opener is between its lock and its unlock. -/
def UnlocksAlone (s : State P) (p : P) : Prop :=
  s.pc p = .closeUnlock ∨ s.pc p = .closeUnlockAgain → ∀ q, (s.pc q).critical = false

instance [Fintype P] (s : State P) (p : P) : Decidable (UnlocksAlone s p) :=
  inferInstanceAs (Decidable (_ → _))

def action (s : State P) (p : P) : TestAndSet.Action P :=
  match s.pc p with
  | .test => .test p
  | .store => .set p
  | .closeStore => .release p
  | _ => .skip

theorem guarded_step {s next : State P} {p : P} (h : s.Guarded Pc.critical)
    (halone : UnlocksAlone s p) (hstep : step s p = some next) :
    next.Guarded Pc.critical := by
  unfold step at hstep
  cases hpc : s.pc p <;>
    simp only [hpc, Option.some.injEq, Option.ite_none_right_eq_some] at hstep
  case mutexLock =>
    obtain ⟨hfree, rfl⟩ := hstep
    exact h.acquire hfree rfl
  case unlockOk =>
    subst hstep
    exact h.release hpc rfl rfl 0
  case unlockBusy =>
    subst hstep
    exact h.release hpc rfl rfl (-ebusy)
  case test =>
    subst hstep
    exact h.goto hpc (by split <;> rfl)
  case closeUnlock =>
    subst hstep
    rw [← h.free (halone (.inl hpc))]
    exact h.goto hpc rfl
  case closeUnlockAgain =>
    subst hstep
    rw [← h.free (halone (.inr hpc))]
    exact h.goto hpc rfl
  all_goals
    subst hstep
    exact h.goto hpc rfl

theorem critical_of_won (pc : Pc) (h : pc.phase = .won) : pc.critical = true := by
  cases pc <;> first | rfl | contradiction

omit [DecidableEq P] in
theorem undisturbed {s : State P} (h : s.Guarded Pc.critical) (p : P) :
    TestAndSet.Undisturbed (s.abstract Pc.phase) (action s p) := by
  cases hpc : s.pc p <;> simp only [action, hpc] <;> try trivial
  exact h.undisturbed critical_of_won hpc rfl (by decide)

theorem abstract_step {s next : State P} {p : P} (hstep : step s p = some next) :
    (TestAndSet.system P).step (s.abstract Pc.phase) (action s p) =
      some (next.abstract Pc.phase) := by
  unfold step at hstep
  cases hpc : s.pc p <;>
    simp only [hpc, Option.some.injEq, Option.ite_none_right_eq_some] at hstep <;>
    simp only [action, hpc]
  case test =>
    subst hstep
    exact s.abstract_test hpc rfl rfl rfl
  case store =>
    subst hstep
    exact s.abstract_set hpc rfl rfl
  case closeStore =>
    subst hstep
    exact s.abstract_release hpc rfl rfl
  case mutexLock =>
    obtain ⟨-, rfl⟩ := hstep
    exact s.abstract_other hpc rfl rfl rfl
  all_goals
    subst hstep
    exact s.abstract_other hpc rfl rfl rfl

def simulation : System.Simulation (system P) UnlocksAlone
    (TestAndSet.system P) TestAndSet.Undisturbed where
  inv s := s.Guarded Pc.critical
  abs s := s.abstract Pc.phase
  label := action
  init s hs := by
    obtain ⟨hlock, havail, hidle⟩ := hs
    exact ⟨.init hlock fun q => congrArg Pc.critical (hidle q),
      s.abstract_init havail fun q => congrArg Pc.phase (hidle q)⟩
  step s p next h halone hstep :=
    ⟨guarded_step h halone hstep, undisturbed h p, abstract_step hstep⟩

theorem refusing_keeps_holders {s next : State P} {p : P} (hrefuse : Refusing s p)
    (hstep : step s p = some next) (q : P) : Holds next q ↔ Holds s q := by
  have hskip : next.abstract Pc.phase = s.abstract Pc.phase := by
    unfold step at hstep
    rcases hrefuse with hpc | hpc | ⟨hpc, havail⟩ | hpc <;>
      simp only [hpc, Option.some.injEq, Option.ite_none_right_eq_some] at hstep
    · exact hstep ▸ s.abstract_skip hpc rfl
    · exact hstep.2 ▸ s.abstract_skip hpc rfl
    · rw [if_neg havail] at hstep
      exact hstep ▸ s.abstract_skip hpc rfl
    · exact hstep ▸ s.abstract_skip hpc rfl
  have hphase := congrFun (congrArg TestAndSet.State.phase hskip) q
  simp only [State.abstract] at hphase
  rw [Holds, Holds, hphase]

theorem mutex_open_exclusive {s : State P} (h : (system P).ReachableWith UnlocksAlone s) :
    (∀ p q, Holds s p → Holds s q → p = q) ∧
    (Quiescent s → s.lock = none ∧ (s.avilable = 1 ↔ ∀ p, ¬ Holds s p)) ∧
    (∀ p next, step s p = some next → Refusing s p →
      ∀ q, Holds next q ↔ Holds s q) := by
  have hguard := simulation.inv_of_reachable h
  have hexcl := TestAndSet.exclusive_of_reachable (simulation.reachable h)
  refine ⟨fun p q => hexcl.owner_unique p q, fun hquiet => ⟨?_, s.avilable_iff hexcl⟩,
    fun p next hstep hrefuse => refusing_keeps_holders hrefuse hstep⟩
  refine State.Guarded.free hguard fun q => ?_
  rcases hquiet q with hq | hq <;> rw [hq] <;> rfl

def start : State (Fin 3) := ⟨none, 1, fun _ => .idle, fun _ => 0⟩

theorem start_init : (system (Fin 3)).init start := ⟨rfl, rfl, fun _ => rfl⟩

/-- Process 0 opens and closes undisturbed, then process 1 opens. -/
theorem mutex_open_after_close :
    ∃ s, (system (Fin 3)).run start [0, 0, 0, 0, 0, 0, 0, 0, 0, 1, 1, 1, 1, 1] = some s ∧
      s.pc 1 = .opened ∧ s.lock = none ∧ ∀ p, Holds s p → p = 1 := by
  refine ⟨_, rfl, rfl, ?_⟩
  obtain ⟨hone, hquiet, -⟩ := mutex_open_exclusive
    (System.ReachableWith.run (.init start_init)
      [0, 0, 0, 0, 0, 0, 0, 0, 0, 1, 1, 1, 1, 1] (by decide) rfl)
  exact ⟨(hquiet (by decide)).1, fun p hp => hone p 1 hp rfl⟩

/--
Process 0 opens and closes; its second unlock comes while process 1 is between
test and store, so process 2 passes the same test.
-/
theorem mutex_admits_two :
    ∃ s, (system (Fin 3)).run start
        [0, 0, 0, 0, 0, 0, 0, 0, 1, 1, 1, 0, 2, 2, 2, 2, 2, 1, 1] = some s ∧
      (s.pc 1 = .opened ∧ s.ret 1 = 0) ∧ (s.pc 2 = .opened ∧ s.ret 2 = 0) :=
  ⟨_, rfl, ⟨rfl, rfl⟩, ⟨rfl, rfl⟩⟩

/-! ## Two processes are enough -/

section Runs

variable {s : State P} {p : P}

theorem run_to_store (hp : s.pc p = .idle) (hlock : s.lock = none) (havail : s.avilable = 1) :
    ∃ next, (system P).run s [p, p, p] = some next ∧
      next.avilable = 1 ∧ next.pc = Function.update s.pc p .store := by
  refine ⟨{ s with lock := some p, pc := Function.update s.pc p .store }, ?_, havail, rfl⟩
  simp [system, step, State.goto, hp, hlock, havail]

theorem run_from_store (hp : s.pc p = .store) :
    ∃ next, (system P).run s [p, p] = some next ∧
      next.lock = none ∧ next.pc = Function.update s.pc p .opened := by
  refine ⟨⟨none, 0, Function.update s.pc p .opened, Function.update s.ret p 0⟩, ?_, rfl, rfl⟩
  simp [system, step, State.goto, State.returns, hp]

theorem run_to_second_unlock (hp : s.pc p = .opened) :
    ∃ next, (system P).run s [p, p, p] = some next ∧
      next.lock = none ∧ next.avilable = 1 ∧
      next.pc = Function.update s.pc p .closeUnlockAgain := by
  refine ⟨⟨none, 1, Function.update s.pc p .closeUnlockAgain, s.ret⟩, ?_, rfl, rfl, rfl⟩
  simp [system, step, State.goto, hp]

theorem run_second_unlock (hp : s.pc p = .closeUnlockAgain) :
    ∃ next, (system P).run s [p] = some next ∧
      next.lock = none ∧ next.avilable = s.avilable ∧ next.pc = Function.update s.pc p .idle := by
  refine ⟨⟨none, s.avilable, Function.update s.pc p .idle, Function.update s.ret p 0⟩, ?_, rfl,
    rfl, rfl⟩
  simp [system, step, State.goto, State.returns, hp]

end Runs

/-- The second unlock of `p` comes while `q` is between test and store, and `p` opens again. -/
theorem opens_beside {p q : P} (hne : p ≠ q) :
    ∃ s, (system P).Reachable s ∧ s.pc p = .opened ∧ s.pc q = .opened := by
  have hstart : (system P).Reachable ⟨none, 1, fun _ => .idle, fun _ => 0⟩ :=
    .init ⟨rfl, rfl, fun _ => rfl⟩
  obtain ⟨s₁, hrun₁, -, hpc₁⟩ := run_to_store (p := p) (s := ⟨none, 1, fun _ => .idle, fun _ => 0⟩)
    rfl rfl rfl
  obtain ⟨s₂, hrun₂, -, hpc₂⟩ := run_from_store (p := p) (s := s₁) (by simp [hpc₁])
  obtain ⟨s₃, hrun₃, hlock₃, havail₃, hpc₃⟩ := run_to_second_unlock (p := p) (s := s₂)
    (by simp [hpc₂])
  -- `q` is let in between the two unlocks of `p`
  obtain ⟨s₄, hrun₄, havail₄, hpc₄⟩ := run_to_store (p := q) (s := s₃)
    (by simp [hpc₁, hpc₂, hpc₃, hne.symm]) hlock₃ havail₃
  obtain ⟨s₅, hrun₅, hlock₅, havail₅, hpc₅⟩ := run_second_unlock (p := p) (s := s₄)
    (by simp [hpc₃, hpc₄, hne])
  obtain ⟨s₆, hrun₆, -, hpc₆⟩ := run_to_store (p := p) (s := s₅) (by simp [hpc₅]) hlock₅
    (havail₅.trans havail₄)
  obtain ⟨s₇, hrun₇, -, hpc₇⟩ := run_from_store (p := p) (s := s₆) (by simp [hpc₆])
  obtain ⟨s₈, hrun₈, -, hpc₈⟩ := run_from_store (p := q) (s := s₇)
    (by simp [hpc₄, hpc₅, hpc₆, hpc₇, hne.symm])
  have hopened := (((hstart.run hrun₁).run hrun₂).run hrun₃).run hrun₄
  have hreopened := (((hopened.run hrun₅).run hrun₆).run hrun₇).run hrun₈
  refine ⟨s₈, hreopened, ?_, ?_⟩
  · simp [hpc₇, hpc₈, hne]
  · simp [hpc₈]

end FarsightDriver.Exclusive.Mutex
