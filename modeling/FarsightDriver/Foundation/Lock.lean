import Mathlib.Logic.Function.Basic

/-!
# Locks and critical sections

A family of locks, one for each key, guards the critical sections of its users
when a process is in its section exactly while it owns the lock of its key.
Two users of one lock are then never in their sections together.
-/

namespace FarsightDriver.Foundation.Lock

variable {K P : Type*}

def Guards (key : P → K) (owner : K → Option P) (critical : P → Bool) : Prop :=
  ∀ p, critical p = true ↔ owner (key p) = some p

variable {key : P → K} {owner : K → Option P} {critical : P → Bool}

theorem Guards.exclusive (h : Guards key owner critical) {p q : P}
    (hkey : key p = key q) (hp : critical p = true) (hq : critical q = true) :
    p = q := by
  have hpq : some p = some q := by
    rw [← (h p).mp hp, hkey, (h q).mp hq]
  exact Option.some.inj hpq

theorem Guards.free (h : Guards key owner critical) {p : P}
    (hfree : owner (key p) = none) : critical p = false := by
  cases hp : critical p with
  | false => rfl
  | true =>
      rw [(h p).mp hp] at hfree
      contradiction

theorem Guards.init (hfree : ∀ k, owner k = none) (hout : ∀ p, critical p = false) :
    Guards key owner critical := by
  intro p
  simp [hfree, hout]

theorem Guards.idle (h : Guards key owner critical) {p : P}
    (hout : ∀ p, critical p = false) : owner (key p) ≠ some p := by
  intro hp
  have hin := (h p).mpr hp
  rw [hout p] at hin
  contradiction

variable [DecidableEq P]

theorem Guards.keep (h : Guards key owner critical) {p : P} {b : Bool}
    (hb : critical p = b) : Guards key owner (Function.update critical p b) := by
  subst hb
  simpa using h

variable [DecidableEq K]

theorem Guards.acquire (h : Guards key owner critical) {p : P}
    (hfree : owner (key p) = none) :
    Guards key (Function.update owner (key p) (some p))
      (Function.update critical p true) := by
  intro q
  by_cases hq : q = p
  · subst hq
    simp
  · by_cases hkey : key q = key p
    · have hout := h.free (hkey.symm ▸ hfree : owner (key q) = none)
      simp [hq, hkey, hout, Ne.symm hq]
    · simp [hq, hkey, h q]

theorem Guards.release (h : Guards key owner critical) {p : P}
    (hp : critical p = true) :
    Guards key (Function.update owner (key p) none)
      (Function.update critical p false) := by
  intro q
  by_cases hq : q = p
  · subst hq
    simp
  · by_cases hkey : key q = key p
    · have hout : critical q = false := by
        by_contra hin
        exact hq (h.exclusive hkey (by simpa using hin) hp)
      simp [hq, hkey, hout]
    · simp [hq, hkey, h q]

/-! ## A single lock -/

theorem Guards.acquire_single {owner : Option P}
    (h : Guards (fun _ => ()) (fun _ => owner) critical) {p : P} (hfree : owner = none) :
    Guards (fun _ => ()) (fun _ => some p) (Function.update critical p true) := by
  have hgot := Guards.acquire h (p := p) hfree
  rwa [Function.update_eq_const_of_subsingleton] at hgot

theorem Guards.release_single {owner : Option P}
    (h : Guards (fun _ => ()) (fun _ => owner) critical) {p : P}
    (hp : critical p = true) :
    Guards (fun _ => ()) (fun _ => none) (Function.update critical p false) := by
  have hgave := Guards.release h hp
  rwa [Function.update_eq_const_of_subsingleton] at hgave

end FarsightDriver.Foundation.Lock
