import Mathlib.Data.Option.Basic
import Mathlib.Data.List.Basic

/-!
# Patches of a store

A patch gives new values to some cells of a store.  A list of patches is applied
from left to right, so a later patch wins.  Applying a list once more, or any
part that stands at its end, changes nothing.
-/

namespace FarsightDriver.Foundation

abbrev Patch (ι β : Type*) := ι → Option β

namespace Patch

variable {ι β : Type*}

def apply (patch : Patch ι β) (store : ι → β) : ι → β :=
  fun i => (patch i).getD (store i)

def applyAll (patches : List (Patch ι β)) (store : ι → β) : ι → β :=
  patches.foldl (fun store patch => patch.apply store) store

@[simp] theorem applyAll_nil (store : ι → β) : applyAll [] store = store := rfl

@[simp] theorem applyAll_cons (patch : Patch ι β) (patches : List (Patch ι β))
    (store : ι → β) : applyAll (patch :: patches) store = applyAll patches (patch.apply store) :=
  rfl

theorem applyAll_append (front back : List (Patch ι β)) (store : ι → β) :
    applyAll (front ++ back) store = applyAll back (applyAll front store) := by
  unfold applyAll
  exact List.foldl_append

theorem apply_of_some {patch : Patch ι β} {i : ι} {value : β} (h : patch i = some value)
    (store : ι → β) : patch.apply store i = value := by
  simp [apply, h]

theorem apply_of_none {patch : Patch ι β} {i : ι} (h : patch i = none) (store : ι → β) :
    patch.apply store i = store i := by
  simp [apply, h]

theorem applyAll_of_none {patches : List (Patch ι β)} {i : ι}
    (h : ∀ patch ∈ patches, patch i = none) (store : ι → β) :
    applyAll patches store i = store i := by
  induction patches generalizing store with
  | nil => rfl
  | cons patch patches ih =>
      rw [applyAll_cons, ih fun other hmem => h other (List.mem_cons_of_mem _ hmem)]
      exact apply_of_none (h patch List.mem_cons_self) store

theorem applyAll_congr {patches : List (Patch ι β)} {left right : ι → β} {i : ι}
    (h : left i = right i ∨ ∃ patch ∈ patches, patch i ≠ none) :
    applyAll patches left i = applyAll patches right i := by
  induction patches generalizing left right with
  | nil => simpa using h
  | cons patch patches ih =>
      rw [applyAll_cons, applyAll_cons]
      apply ih
      cases hpatch : patch i with
      | some value =>
          left
          rw [apply_of_some hpatch, apply_of_some hpatch]
      | none =>
          rcases h with hsame | ⟨other, hmem, hother⟩
          · left
            rw [apply_of_none hpatch, apply_of_none hpatch, hsame]
          · right
            rcases List.mem_cons.mp hmem with rfl | hrest
            · contradiction
            · exact ⟨other, hrest, hother⟩

theorem applyAll_idempotent (patches : List (Patch ι β)) (store : ι → β) :
    applyAll patches (applyAll patches store) = applyAll patches store := by
  funext i
  by_cases h : ∃ patch ∈ patches, patch i ≠ none
  · exact applyAll_congr (.inr h)
  · push Not at h
    exact applyAll_of_none h _

theorem applyAll_suffix (front back : List (Patch ι β)) (store : ι → β) :
    applyAll back (applyAll (front ++ back) store) = applyAll (front ++ back) store := by
  rw [applyAll_append]
  exact applyAll_idempotent back _

theorem applyAll_cons_of_some {patch : Patch ι β} {patches : List (Patch ι β)} {i : ι}
    {value : β} (hpatch : patch i = some value) (h : ∀ other ∈ patches, other i = none)
    (store : ι → β) : applyAll (patch :: patches) store i = value := by
  rw [applyAll_cons, applyAll_of_none h]
  exact apply_of_some hpatch store

/-- Patches of different cells can be applied in either order. -/
theorem applyAll_comm {front back : List (Patch ι β)}
    (h : ∀ p ∈ front, ∀ q ∈ back, ∀ i, p i = none ∨ q i = none) (store : ι → β) :
    applyAll back (applyAll front store) = applyAll front (applyAll back store) := by
  funext i
  by_cases hfront : ∃ p ∈ front, p i ≠ none
  · have hback : ∀ q ∈ back, q i = none := by
      obtain ⟨p, hp, hsome⟩ := hfront
      exact fun q hq => (h p hp q hq i).resolve_left hsome
    rw [applyAll_of_none hback]
    exact applyAll_congr (.inr hfront)
  · push Not at hfront
    rw [applyAll_of_none hfront]
    exact applyAll_congr (.inl (applyAll_of_none hfront store))

end Patch

end FarsightDriver.Foundation
