import FarsightDriver.Exclusive.Basic
import FarsightDriver.Foundation.Permits

/-!
# Exclusive open with a semaphore

`myopen` takes the semaphore, whose count starts at 1, and `myclose` gives it
back.  The flag `avilable` is written by `myclose` and tested by nobody.  Where
the other drivers refuse a second opener with `-EBUSY`, this one lets it wait.
-/

namespace FarsightDriver.Exclusive.Semaphore

open FarsightDriver.Foundation

inductive Pc where
  | idle
  | down
  | opened
  | closeStore
  | up
  deriving DecidableEq, Repr

/-- The lock is the count of the semaphore. -/
abbrev State (P : Type*) := Exclusive.State Nat P Pc

variable {P : Type*} [DecidableEq P]

def step (s : State P) (p : P) : Option (State P) :=
  match s.pc p with
  | .idle => some (s.goto p .down)
  | .down =>
      if 0 < s.lock then some { s.returns p 0 .opened with lock := s.lock - 1 } else none
  | .opened => some (s.goto p .closeStore)
  | .closeStore => some { s.goto p .up with avilable := 1 }
  | .up => some { s.returns p 0 .idle with lock := s.lock + 1 }

def semaInit : Nat := 1

def system (P : Type*) [DecidableEq P] : System (State P) P where
  init s := s.lock = semaInit ∧ s.avilable = 1 ∧ (∀ p, s.pc p = .idle) ∧ ∀ p, s.ret p = 0
  step := step

theorem step_others {s next : State P} {p q : P} (hstep : step s p = some next) (hq : q ≠ p) :
    next.pc q = s.pc q := by
  unfold step at hstep
  cases hpc : s.pc p <;>
    simp only [hpc, Option.some.injEq, Option.ite_none_right_eq_some] at hstep
  all_goals first
    | (subst hstep; exact Function.update_of_ne hq _ _)
    | (obtain ⟨-, rfl⟩ := hstep; exact Function.update_of_ne hq _ _)

/-- The device is held from `down` to `up`. -/
def Pc.holds : Pc → Bool
  | .opened | .closeStore | .up => true
  | _ => false

def Holds (s : State P) (p : P) : Prop := (s.pc p).holds = true

structure Inv (s : State P) : Prop where
  permits : Permits semaInit s.lock fun p => (s.pc p).holds
  avilable : s.avilable = 1
  ret : ∀ p, s.ret p = 0

theorem inv_init {s : State P} (hs : (system P).init s) : Inv s := by
  obtain ⟨hlock, havail, hidle, hret⟩ := hs
  refine ⟨?_, havail, hret⟩
  rw [hlock]
  exact Permits.init fun p => congrArg Pc.holds (hidle p)

theorem permits_goto {s : State P} {p : P} {old pc : Pc} {count : Nat}
    (h : Permits semaInit count fun q => (s.pc q).holds) (hpc : s.pc p = old)
    (hkeep : old.holds = pc.holds) :
    Permits semaInit count fun q => ((s.goto p pc).pc q).holds := by
  rw [State.map_goto]
  exact Permits.keep h ((congrArg Pc.holds hpc).trans hkeep)

theorem ret_returns {s : State P} (h : ∀ p, s.ret p = 0) (p : P) (pc : Pc) (q : P) :
    (s.returns p 0 pc).ret q = 0 :=
  (Function.forall_update_iff s.ret fun _ value => value = 0).mpr ⟨rfl, fun q _ => h q⟩ q

theorem inv_step {s next : State P} {p : P} (h : Inv s) (hstep : step s p = some next) :
    Inv next := by
  unfold step at hstep
  cases hpc : s.pc p <;>
    simp only [hpc, Option.some.injEq, Option.ite_none_right_eq_some] at hstep
  case idle =>
    subst hstep
    exact ⟨permits_goto h.permits hpc rfl, h.avilable, h.ret⟩
  case down =>
    obtain ⟨hpos, rfl⟩ := hstep
    refine ⟨?_, h.avilable, ret_returns h.ret p .opened⟩
    obtain ⟨count, hcount⟩ := Nat.exists_eq_add_of_lt hpos
    have hpermits := h.permits
    rw [hcount, Nat.zero_add] at hpermits
    have hdown := hpermits.down (congrArg Pc.holds hpc)
    have hgoto := State.map_goto Pc.holds s p .opened
    rw [hcount, Nat.zero_add]
    exact hgoto ▸ hdown
  case opened =>
    subst hstep
    exact ⟨permits_goto h.permits hpc rfl, h.avilable, h.ret⟩
  case closeStore =>
    subst hstep
    exact ⟨permits_goto h.permits hpc rfl, rfl, h.ret⟩
  case up =>
    subst hstep
    refine ⟨?_, h.avilable, ret_returns h.ret p .idle⟩
    have hgoto := State.map_goto Pc.holds s p .idle
    exact hgoto ▸ h.permits.up (congrArg Pc.holds hpc)

theorem inv_of_reachable {s : State P} (h : (system P).Reachable s) : Inv s :=
  h.invariant Inv (fun _ => inv_init) fun _ _ _ => inv_step

/-! ## Waiting openers -/

def Waits (s : State P) (p : P) : Prop := s.pc p = .down ∧ step s p = none

theorem waits_iff {s : State P} {p : P} (hp : s.pc p = .down) : Waits s p ↔ s.lock = 0 := by
  unfold Waits step
  simp only [hp, true_and, ite_eq_right_iff, reduceCtorEq, imp_false]
  omega

/-- The steps that a holder has left until it gives the semaphore back. -/
def Pc.left : Pc → Nat
  | .opened => 3
  | .closeStore => 2
  | .up => 1
  | _ => 0

theorem holder_gives_back {s : State P} {q : P} (hq : Holds s q) :
    ∃ next, (system P).run s (List.replicate (s.pc q).left q) = some next ∧
      next.lock = s.lock + 1 ∧ next.pc q = .idle ∧ ∀ p, p ≠ q → next.pc p = s.pc p := by
  unfold Holds at hq
  cases hpc : s.pc q <;> simp only [hpc, Pc.holds, Bool.false_eq_true] at hq
  case opened =>
    refine ⟨_, by
      simp [Pc.left, List.replicate, system, step, State.goto, State.returns, hpc]
      rfl, rfl, ?_, fun p hp => ?_⟩ <;> simp [*]
  case closeStore =>
    refine ⟨_, by
      simp [Pc.left, List.replicate, system, step, State.goto, State.returns, hpc]
      rfl, rfl, ?_, fun p hp => ?_⟩ <;> simp [*]
  case up =>
    refine ⟨_, by
      simp [Pc.left, system, step, State.goto, State.returns, hpc]
      rfl, rfl, ?_, fun p hp => ?_⟩ <;> simp [*]

theorem waiter_follows {s : State P} (h : (system P).Reachable s) {p : P} (hwaits : Waits s p) :
    ∃ q next after, q ≠ p ∧ Holds s q ∧
      (system P).run s (List.replicate (s.pc q).left q) = some next ∧
      step next p = some after ∧ Holds after p := by
  have hinv := inv_of_reachable h
  have hzero : s.lock = 0 := (waits_iff hwaits.1).mp hwaits
  obtain ⟨q, hq⟩ := hinv.permits.exists_inside (by rw [hzero]; decide)
  have hne : q ≠ p := by
    rintro rfl
    rw [hwaits.1] at hq
    cases hq
  obtain ⟨next, hrun, hlock, -, hothers⟩ := holder_gives_back hq
  have hdown : next.pc p = .down := (hothers p hne.symm).trans hwaits.1
  refine ⟨q, next, { next.returns p 0 .opened with lock := next.lock - 1 }, hne, hq, hrun,
    ?_, ?_⟩
  · simp only [step, hdown]
    rw [if_pos (by omega)]
  · simp [Holds, State.returns, State.goto, Pc.holds]

/--
At most one process holds the device, no call is ever refused, and whoever waits
is let in as soon as the one holder has taken the steps of its close.
-/
theorem semaphore_open_exclusive {s : State P} (h : (system P).Reachable s) :
    (∀ p q, Holds s p → Holds s q → p = q) ∧
    (s.lock = 1 ↔ ∀ p, ¬ Holds s p) ∧
    (∀ p, s.ret p = 0) ∧
    ∀ p, Waits s p → ∃ q next after, q ≠ p ∧ Holds s q ∧
      (system P).run s (List.replicate (s.pc q).left q) = some next ∧
      step next p = some after ∧ Holds after p ∧ ∀ r, Holds after r → r = p := by
  have hinv := inv_of_reachable h
  refine ⟨fun p q => hinv.permits.exclusive, ?_, hinv.ret, fun p hwaits => ?_⟩
  · rw [show (1 : Nat) = semaInit from rfl, hinv.permits.all_left_iff]
    exact forall_congr' fun p => (Bool.not_eq_true _).symm.to_iff
  · obtain ⟨q, next, after, hne, hq, hrun, hstep, hin⟩ := waiter_follows h hwaits
    have hafter : (system P).Reachable after := (h.run hrun).step trivial hstep
    exact ⟨q, next, after, hne, hq, hrun, hstep, hin,
      fun r hr => (inv_of_reachable hafter).permits.exclusive hr hin⟩

/-- Process 0 has the device and process 1 waits. -/
theorem semaphore_second_opener :
    ∃ s q next after, (system (Fin 2)).run ⟨1, 1, fun _ => .idle, fun _ => 0⟩ [0, 0, 1] = some s ∧
      q ≠ 1 ∧ (system (Fin 2)).run s (List.replicate (s.pc q).left q) = some next ∧
      step next 1 = some after ∧ Holds after 1 := by
  have hrun : ∃ s, (system (Fin 2)).run ⟨1, 1, fun _ => .idle, fun _ => 0⟩ [0, 0, 1] = some s ∧
      s.lock = 0 ∧ s.pc 1 = .down :=
    ⟨_, rfl, rfl, rfl⟩
  obtain ⟨s, hrun, hlock, hpc⟩ := hrun
  have hreach : (system (Fin 2)).Reachable s :=
    System.reachable_of_run ⟨rfl, rfl, fun _ => rfl, fun _ => rfl⟩ hrun
  obtain ⟨-, -, -, hwaits⟩ := semaphore_open_exclusive hreach
  obtain ⟨q, next, after, hne, -, hgives, hstep, hholds, -⟩ :=
    hwaits 1 ((waits_iff hpc).mpr hlock)
  exact ⟨s, q, next, after, hrun, hne, hgives, hstep, hholds⟩

end FarsightDriver.Exclusive.Semaphore
