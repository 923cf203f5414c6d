import Mathlib.Logic.Function.Basic

/-!
# Labelled partial transition systems

A system moves a state by labels; a label that is not enabled yields `none`.
Concurrent programs are described by letting a label name the process that
takes the next step, so that a run is one interleaving.  The reachability
predicate carries a guard on steps: `ReachableWith guard` collects the states
met by the runs all of whose steps satisfy it.
-/

namespace FarsightDriver.Foundation

structure System (σ α : Type*) where
  init : σ → Prop
  step : σ → α → Option σ

namespace System

variable {σ τ α β : Type*}

def run (S : System σ α) : σ → List α → Option σ
  | s, [] => some s
  | s, a :: rest => (S.step s a).bind fun next => S.run next rest

inductive ReachableWith (S : System σ α) (guard : σ → α → Prop) : σ → Prop
  | init {s : σ} (hinit : S.init s) : ReachableWith S guard s
  | step {s next : σ} {a : α} (reached : ReachableWith S guard s)
      (hguard : guard s a) (hstep : S.step s a = some next) :
      ReachableWith S guard next

def Reachable (S : System σ α) (s : σ) : Prop :=
  S.ReachableWith (fun _ _ => True) s

variable {S : System σ α} {guard : σ → α → Prop}

@[simp] theorem run_nil (s : σ) : S.run s [] = some s := rfl

@[simp] theorem run_cons (s : σ) (a : α) (rest : List α) :
    S.run s (a :: rest) = (S.step s a).bind fun next => S.run next rest := rfl

theorem run_append (s : σ) (front back : List α) :
    S.run s (front ++ back) =
      (S.run s front).bind fun middle => S.run middle back := by
  induction front generalizing s with
  | nil => rfl
  | cons a front ih =>
      simp only [List.cons_append, run_cons]
      cases hstep : S.step s a with
      | none => rfl
      | some next => simpa using ih next

theorem ReachableWith.mono {guard' : σ → α → Prop}
    (himp : ∀ s a, guard s a → guard' s a) {s : σ}
    (h : S.ReachableWith guard s) : S.ReachableWith guard' s := by
  induction h with
  | init hinit => exact .init hinit
  | step _ hguard hstep ih => exact ih.step (himp _ _ hguard) hstep

theorem ReachableWith.reachable {s : σ} (h : S.ReachableWith guard s) :
    S.Reachable s :=
  h.mono fun _ _ _ => trivial

theorem ReachableWith.invariant (inv : σ → Prop)
    (hinit : ∀ s, S.init s → inv s)
    (hstep : ∀ s a next, inv s → guard s a → S.step s a = some next → inv next)
    {s : σ} (h : S.ReachableWith guard s) : inv s := by
  induction h with
  | init h₀ => exact hinit _ h₀
  | step _ hguard hs ih => exact hstep _ _ _ ih hguard hs

theorem Reachable.invariant (inv : σ → Prop)
    (hinit : ∀ s, S.init s → inv s)
    (hstep : ∀ s a next, inv s → S.step s a = some next → inv next)
    {s : σ} (h : S.Reachable s) : inv s :=
  ReachableWith.invariant inv hinit (fun s a next hi _ => hstep s a next hi) h

theorem Reachable.run {s finish : σ} (h : S.Reachable s) {labels : List α}
    (hrun : S.run s labels = some finish) : S.Reachable finish := by
  induction labels generalizing s with
  | nil =>
      simp only [run_nil, Option.some.injEq] at hrun
      exact hrun ▸ h
  | cons a rest ih =>
      obtain ⟨next, hstep, hrest⟩ := Option.bind_eq_some_iff.mp hrun
      exact ih (h.step trivial hstep) hrest

theorem reachable_of_run {s finish : σ} (hinit : S.init s) {labels : List α}
    (hrun : S.run s labels = some finish) : S.Reachable finish :=
  Reachable.run (.init hinit) hrun

def GuardedRun (S : System σ α) (guard : σ → α → Prop) : σ → List α → Prop
  | _, [] => True
  | s, a :: rest =>
      guard s a ∧
        match S.step s a with
        | none => True
        | some next => S.GuardedRun guard next rest

instance GuardedRun.decidable [∀ s a, Decidable (guard s a)] :
    (s : σ) → (labels : List α) → Decidable (S.GuardedRun guard s labels)
  | _, [] => .isTrue trivial
  | s, a :: rest =>
      have : Decidable (match S.step s a with
          | none => True
          | some next => S.GuardedRun guard next rest) :=
        match S.step s a with
        | none => .isTrue trivial
        | some next => GuardedRun.decidable next rest
      inferInstanceAs (Decidable (_ ∧ _))

theorem ReachableWith.run {s finish : σ} (h : S.ReachableWith guard s)
    (labels : List α) (hguard : S.GuardedRun guard s labels)
    (hrun : S.run s labels = some finish) : S.ReachableWith guard finish := by
  induction labels generalizing s with
  | nil =>
      simp only [run_nil, Option.some.injEq] at hrun
      exact hrun ▸ h
  | cons a rest ih =>
      obtain ⟨next, hstep, hrest⟩ := Option.bind_eq_some_iff.mp hrun
      simp only [GuardedRun, hstep] at hguard
      exact ih (h.step hguard.1 hstep) hguard.2 hrest

/-- When an invariant of the runs under one guard implies a second guard at every
enabled step, these runs are runs under the second guard. -/
theorem ReachableWith.reachableWith {guard' : σ → α → Prop} (inv : σ → Prop)
    (hinit : ∀ s, S.init s → inv s)
    (hstep : ∀ s a next, inv s → guard s a → S.step s a = some next → inv next)
    (himp : ∀ s a next, inv s → guard s a → S.step s a = some next → guard' s a)
    {s : σ} (h : S.ReachableWith guard s) : S.ReachableWith guard' s := by
  induction h with
  | init h₀ => exact .init h₀
  | step reached hguard hs ih =>
      exact ih.step (himp _ _ _ (reached.invariant inv hinit hstep) hguard hs) hs

/-- `good` holds in every state of the run, up to the first step that is not enabled. -/
def AlongRun (S : System σ α) (good : σ → Prop) : σ → List α → Prop
  | s, [] => good s
  | s, a :: rest =>
      good s ∧
        match S.step s a with
        | none => True
        | some next => S.AlongRun good next rest

theorem AlongRun.head {good : σ → Prop} {s : σ} {labels : List α}
    (h : S.AlongRun good s labels) : good s := by
  cases labels with
  | nil => exact h
  | cons a rest => exact h.1

/-- A guard is exact for a property when a step that violates it breaks the property. -/
theorem guardedRun_iff_alongRun (inv good : σ → Prop) (hgood : ∀ s, inv s → good s)
    (hstep : ∀ s a next, inv s → guard s a → S.step s a = some next → inv next)
    (hexact : ∀ s a, ¬ guard s a → ∃ next, S.step s a = some next ∧ ¬ good next)
    {s : σ} (h : inv s) (labels : List α) :
    S.GuardedRun guard s labels ↔ S.AlongRun good s labels := by
  induction labels generalizing s with
  | nil => exact ⟨fun _ => hgood s h, fun _ => trivial⟩
  | cons a rest ih =>
      constructor
      · rintro ⟨hguard, hrest⟩
        refine ⟨hgood s h, ?_⟩
        cases hs : S.step s a with
        | none => trivial
        | some next =>
            rw [hs] at hrest
            exact (ih (hstep s a next h hguard hs)).mp hrest
      · rintro ⟨-, hrest⟩
        have hguard : guard s a := by
          by_contra hbad
          obtain ⟨next, hs, hbroken⟩ := hexact s a hbad
          rw [hs] at hrest
          exact hbroken hrest.head
        refine ⟨hguard, ?_⟩
        cases hs : S.step s a with
        | none => trivial
        | some next =>
            rw [hs] at hrest
            exact (ih (hstep s a next h hguard hs)).mpr hrest

/-! ## Forward simulation -/

/--
`C` under its guard refines `A` under its guard along `abs`: every step of `C`
from a state with the invariant is the step of `A` that `label` names.
-/
structure Simulation (C : System σ α) (guardC : σ → α → Prop)
    (A : System τ β) (guardA : τ → β → Prop) where
  inv : σ → Prop
  abs : σ → τ
  label : σ → α → β
  init : ∀ s, C.init s → inv s ∧ A.init (abs s)
  step : ∀ s a next, inv s → guardC s a → C.step s a = some next →
    inv next ∧ guardA (abs s) (label s a) ∧
      A.step (abs s) (label s a) = some (abs next)

namespace Simulation

variable {C : System σ α} {guardC : σ → α → Prop}
  {A : System τ β} {guardA : τ → β → Prop}

theorem inv_of_reachable (R : Simulation C guardC A guardA) {s : σ}
    (h : C.ReachableWith guardC s) : R.inv s :=
  h.invariant R.inv (fun s hs => (R.init s hs).1)
    fun s a next hi hg hs => (R.step s a next hi hg hs).1

theorem reachable (R : Simulation C guardC A guardA) {s : σ}
    (h : C.ReachableWith guardC s) : A.ReachableWith guardA (R.abs s) := by
  induction h with
  | init hinit => exact .init (R.init _ hinit).2
  | step reached hguard hs ih =>
      obtain ⟨-, hguardA, hmatch⟩ :=
        R.step _ _ _ (R.inv_of_reachable reached) hguard hs
      exact ih.step hguardA hmatch

end Simulation

end System

end FarsightDriver.Foundation
