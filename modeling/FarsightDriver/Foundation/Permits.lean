import Mathlib.Data.Finset.Card

/-!
# Counting semaphores

A semaphore starts with a number of permits.  Whoever takes one is inside until
it gives one back, so the permits that are left and the processes that are
inside always add up to the number of the beginning.
-/

namespace FarsightDriver.Foundation

variable {P : Type*}

/-- `count` permits are left of `total`, and each process inside has one of the others. -/
def Permits (total count : Nat) (inside : P → Bool) : Prop :=
  ∃ holders : Finset P, (∀ p, p ∈ holders ↔ inside p = true) ∧ holders.card + count = total

namespace Permits

variable {total count : Nat} {inside : P → Bool}

theorem init (hout : ∀ p, inside p = false) : Permits total total inside :=
  ⟨∅, fun p => by simp [hout p], by simp⟩

theorem exclusive (h : Permits 1 count inside) {p q : P} (hp : inside p = true)
    (hq : inside q = true) : p = q := by
  obtain ⟨holders, hholders, hcard⟩ := h
  have hone : holders.card ≤ 1 := by omega
  exact Finset.card_le_one.mp hone p ((hholders p).mpr hp) q ((hholders q).mpr hq)

theorem all_left_iff (h : Permits total count inside) :
    count = total ↔ ∀ p, inside p = false := by
  obtain ⟨holders, hholders, hcard⟩ := h
  have hempty : count = total ↔ holders = ∅ := by
    rw [← Finset.card_eq_zero]
    omega
  rw [hempty, Finset.eq_empty_iff_forall_notMem]
  refine forall_congr' fun p => ?_
  rw [hholders, Bool.not_eq_true]

theorem exists_inside (h : Permits total count inside) (hlt : count < total) :
    ∃ p, inside p = true := by
  by_contra hnone
  have hout : ∀ p, inside p = false := fun p => by
    rw [← Bool.not_eq_true]
    exact not_exists.mp hnone p
  exact absurd (h.all_left_iff.mpr hout) hlt.ne

variable [DecidableEq P]

theorem keep (h : Permits total count inside) {p : P} {b : Bool} (hb : inside p = b) :
    Permits total count (Function.update inside p b) := by
  subst hb
  rwa [Function.update_eq_self]

theorem down (h : Permits total (count + 1) inside) {p : P} (hp : inside p = false) :
    Permits total count (Function.update inside p true) := by
  obtain ⟨holders, hholders, hcard⟩ := h
  have hnot : p ∉ holders := by rw [hholders, hp]; decide
  refine ⟨insert p holders, fun q => ?_, ?_⟩
  · by_cases hq : q = p
    · simp [hq]
    · simp [hq, hholders]
  · rw [Finset.card_insert_of_notMem hnot]
    omega

theorem up (h : Permits total count inside) {p : P} (hp : inside p = true) :
    Permits total (count + 1) (Function.update inside p false) := by
  obtain ⟨holders, hholders, hcard⟩ := h
  have hmem : p ∈ holders := (hholders p).mpr hp
  refine ⟨holders.erase p, fun q => ?_, ?_⟩
  · by_cases hq : q = p
    · simp [hq]
    · simp [hq, hholders]
  · have herase := Finset.card_erase_add_one hmem
    omega

end Permits

end FarsightDriver.Foundation
