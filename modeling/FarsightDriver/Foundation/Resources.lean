import FarsightDriver.Foundation.Prefixes
import Mathlib.Algebra.BigOperators.Group.List.Basic
import Mathlib.Algebra.Order.Ring.Int

/-!
# Resources that are acquired and released

A log of acquisitions and releases is balanced when each release gives back what
is held at the time and nothing is held at the end.  What is held is a number for
each resource, and the numbers of two logs add up.
-/

namespace FarsightDriver.Foundation

inductive Use (R : Type*) where
  | acquire (r : R)
  | release (r : R)
  deriving DecidableEq

namespace Use

variable {R : Type*} [DecidableEq R]

def effect (r : R) : Use R → Int
  | .acquire r' => if r' = r then 1 else 0
  | .release r' => if r' = r then -1 else 0

def held (log : List (Use R)) (r : R) : Int := (log.map (effect r)).sum

def Balanced (log : List (Use R)) : Prop :=
  AtEach (fun front use => ∀ r, use = .release r → 0 < held front r) log ∧ ∀ r, held log r = 0

@[simp] theorem held_nil (r : R) : held [] r = 0 := rfl

@[simp] theorem held_append (front back : List (Use R)) (r : R) :
    held (front ++ back) r = held front r + held back r := by
  rw [held, List.map_append, List.sum_append]
  rfl

@[simp] theorem held_cons (use : Use R) (rest : List (Use R)) (r : R) :
    held (use :: rest) r = effect r use + held rest r := by
  rw [held, List.map_cons, List.sum_cons]
  rfl

@[simp] theorem effect_acquire (r r' : R) :
    effect r (.acquire r') = if r' = r then 1 else 0 := rfl

@[simp] theorem effect_release (r r' : R) :
    effect r (.release r') = if r' = r then -1 else 0 := rfl

theorem not_balanced_of_held {log : List (Use R)} {r : R} (h : held log r ≠ 0) : ¬ Balanced log :=
  fun hbalanced => h (hbalanced.2 r)

def resource : Use R → R
  | .acquire r | .release r => r

theorem held_acquires (rs : List R) (r : R) : held (rs.map .acquire) r = rs.count r := by
  induction rs with
  | nil => rfl
  | cons r' rs ih =>
      rw [List.map_cons, held_cons, ih, effect_acquire, List.count_cons]
      by_cases h : r' = r <;> simp [h, add_comm]

theorem held_releases (rs : List R) (r : R) : held (rs.map .release) r = -rs.count r := by
  induction rs with
  | nil => rfl
  | cons r' rs ih =>
      rw [List.map_cons, held_cons, ih, effect_release, List.count_cons]
      by_cases h : r' = r <;> simp [h, add_comm]

theorem releases_held {acquired released : List R}
    (h : ∀ r, released.count r ≤ acquired.count r) :
    AtEach (fun front use => ∀ r, use = .release r → 0 < held front r)
      (acquired.map Use.acquire ++ released.map Use.release) := by
  induction released using List.reverseRecOn with
  | nil =>
      rw [List.map_nil, List.append_nil]
      clear h
      induction acquired using List.reverseRecOn with
      | nil => exact .nil
      | append_singleton acquired r ih =>
          rw [List.map_append]
          exact atEach_append.mpr ⟨ih, fun r' h => nomatch h⟩
  | append_singleton released r ih =>
      rw [List.map_append, ← List.append_assoc]
      refine atEach_append.mpr ⟨ih fun r' => ?_, fun r' hr' => ?_⟩
      · have hcount := h r'
        rw [List.count_append] at hcount
        omega
      · cases hr'
        have hcount := h r
        rw [List.count_append, List.count_singleton_self] at hcount
        rw [held_append, held_acquires, held_releases]
        omega

/-- A call that acquires and a later one that releases are in balance when they agree. -/
theorem balanced_iff_perm {acquired released : List R} :
    Balanced (acquired.map .acquire ++ released.map .release) ↔ released.Perm acquired := by
  have htotal : ∀ r, held (acquired.map .acquire ++ released.map .release) r =
      acquired.count r - released.count r := fun r => by
    rw [held_append, held_acquires, held_releases]
    rfl
  constructor
  · rintro ⟨-, hzero⟩
    refine List.perm_iff_count.mpr fun r => ?_
    have hr := hzero r
    rw [htotal] at hr
    omega
  · intro h
    refine ⟨releases_held fun r => le_of_eq (h.count_eq r), fun r => ?_⟩
    rw [htotal, h.count_eq]
    omega

end Use

end FarsightDriver.Foundation
