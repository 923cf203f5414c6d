import FarsightDriver.Foundation.System

/-!
# Ownership by test and set

Processes compete for one flag.  A process tests the flag, and when it finds it
free it has won and sets it in a later step; the owner releases it by a plain
store.  The test and the set are two steps, so two processes may win the same
flag.  They do not when no test falls between the test and the set of another
process.
-/

namespace FarsightDriver.Foundation.TestAndSet

inductive Phase where
  | out
  | won
  | owner
  deriving DecidableEq, Repr

structure State (P : Type*) where
  free : Bool
  phase : P → Phase

inductive Action (P : Type*) where
  | skip
  | test (p : P)
  | set (p : P)
  | release (p : P)

variable {P : Type*} [DecidableEq P]

def State.move (s : State P) (p : P) (phase : Phase) : State P :=
  { s with phase := Function.update s.phase p phase }

theorem State.move_self (s : State P) {p : P} {phase : Phase} (h : s.phase p = phase) :
    s.move p phase = s := by
  subst h
  simp [State.move]

def system (P : Type*) [DecidableEq P] : System (State P) (Action P) where
  init s := s.free = true ∧ ∀ p, s.phase p = .out
  step s
    | .skip => some s
    | .test p =>
        if s.phase p = .out then some (if s.free then s.move p .won else s) else none
    | .set p =>
        if s.phase p = .won then some { s.move p .owner with free := false } else none
    | .release p =>
        if s.phase p = .owner then some { s.move p .out with free := true } else none

/-- A test is undisturbed when nobody else stands between test and set. -/
def Undisturbed (s : State P) : Action P → Prop
  | .test _ => ∀ q, s.phase q ≠ .won
  | _ => True

structure Exclusive (s : State P) : Prop where
  won_free : ∀ p, s.phase p = .won → s.free = true
  won_unique : ∀ p q, s.phase p = .won → s.phase q = .won → p = q
  owner_taken : ∀ p, s.phase p = .owner → s.free = false
  owner_unique : ∀ p q, s.phase p = .owner → s.phase q = .owner → p = q
  taken_owned : s.free = false → ∃ p, s.phase p = .owner

omit [DecidableEq P] in
theorem Exclusive.init {s : State P} (hfree : s.free = true)
    (hout : ∀ p, s.phase p = .out) : Exclusive s := by
  constructor <;> simp [hfree, hout]

omit [DecidableEq P] in
theorem Exclusive.no_owner {s : State P} (h : Exclusive s) {p : P}
    (hp : s.phase p = .won) (q : P) : s.phase q ≠ .owner := by
  intro hq
  have hfree := h.won_free p hp
  rw [h.owner_taken q hq] at hfree
  contradiction

theorem Exclusive.test {s : State P} (h : Exclusive s) (p : P)
    (hguard : ∀ q, s.phase q ≠ .won) :
    Exclusive (if s.free then s.move p .won else s) := by
  cases hfree : s.free with
  | false => simpa using h
  | true =>
      have hnot : ∀ q, s.phase q ≠ .owner := by
        intro q hq
        rw [h.owner_taken q hq] at hfree
        contradiction
      simp only [if_true]
      constructor
      · intro _ _
        exact hfree
      · intro q r hq hr
        simp only [State.move, Function.update_apply] at hq hr
        split at hq <;> split at hr <;> simp_all
      · intro q hq
        simp only [State.move, Function.update_apply] at hq
        split at hq <;> simp_all
      · intro q r hq
        simp only [State.move, Function.update_apply] at hq
        split at hq <;> simp_all
      · intro htaken
        rw [State.move, hfree] at htaken
        contradiction

theorem Exclusive.set {s : State P} (h : Exclusive s) {p : P}
    (hp : s.phase p = .won) : Exclusive { s.move p .owner with free := false } := by
  constructor
  · intro q hq
    simp only [State.move, Function.update_apply] at hq
    split at hq
    · contradiction
    · exact absurd (h.won_unique q p hq hp) (by assumption)
  · intro q r hq hr
    simp only [State.move, Function.update_apply] at hq hr
    split at hq <;> split at hr <;> simp_all [h.won_unique q r]
  · intro _ _
    rfl
  · intro q r hq hr
    have hnot := h.no_owner hp
    simp only [State.move, Function.update_apply] at hq hr
    split at hq <;> split at hr <;> simp_all
  · intro _
    exact ⟨p, by simp [State.move]⟩

theorem Exclusive.release {s : State P} (h : Exclusive s) {p : P}
    (hp : s.phase p = .owner) : Exclusive { s.move p .out with free := true } := by
  constructor
  · intro _ _
    rfl
  · intro q r hq hr
    simp only [State.move, Function.update_apply] at hq hr
    split at hq <;> split at hr <;> simp_all [h.won_unique q r]
  · intro q hq
    simp only [State.move, Function.update_apply] at hq
    split at hq
    · contradiction
    · exact absurd (h.owner_unique q p hq hp) (by assumption)
  · intro q r hq hr
    simp only [State.move, Function.update_apply] at hq hr
    split at hq <;> split at hr <;> simp_all [h.owner_unique q r]
  · intro htaken
    contradiction

theorem exclusive_step {s next : State P} {action : Action P} (h : Exclusive s)
    (hguard : Undisturbed s action) (hstep : (system P).step s action = some next) :
    Exclusive next := by
  cases action with
  | skip =>
      simp only [system, Option.some.injEq] at hstep
      exact hstep ▸ h
  | test p =>
      simp only [system, Option.ite_none_right_eq_some, Option.some.injEq] at hstep
      exact hstep.2 ▸ h.test p hguard
  | set p =>
      simp only [system, Option.ite_none_right_eq_some, Option.some.injEq] at hstep
      exact hstep.2 ▸ h.set hstep.1
  | release p =>
      simp only [system, Option.ite_none_right_eq_some, Option.some.injEq] at hstep
      exact hstep.2 ▸ h.release hstep.1

theorem exclusive_of_reachable {s : State P}
    (h : (system P).ReachableWith Undisturbed s) : Exclusive s := by
  refine h.invariant Exclusive ?_ fun _ _ _ => exclusive_step
  rintro s ⟨hfree, hout⟩
  exact .init hfree hout

omit [DecidableEq P] in
theorem Exclusive.free_iff {s : State P} (h : Exclusive s) :
    s.free = true ↔ ∀ p, s.phase p ≠ .owner := by
  constructor
  · intro hfree p hp
    rw [h.owner_taken p hp] at hfree
    contradiction
  · intro hnone
    by_contra hfree
    obtain ⟨p, hp⟩ := h.taken_owned (by simpa using hfree)
    exact hnone p hp

end FarsightDriver.Foundation.TestAndSet
