import Mathlib.Data.List.Induction
import Mathlib.Data.List.Infix

/-!
# Properties of the calls of a sequence

What is true of a call may depend on the calls before it.  A property of this
kind holds throughout a sequence when it holds of each element together with
those in front of it.
-/

namespace FarsightDriver.Foundation

variable {α : Type*}

def AtEach (p : List α → α → Prop) (l : List α) : Prop := ∀ front a, front ++ [a] <+: l → p front a

variable {p q : List α → α → Prop}

theorem AtEach.nil : AtEach p [] := fun front a hpre =>
  absurd (List.prefix_nil.mp hpre) (List.append_ne_nil_of_right_ne_nil front (by simp))

theorem atEach_append {l : List α} {a : α} : AtEach p (l ++ [a]) ↔ AtEach p l ∧ p l a := by
  constructor
  · intro hall
    refine ⟨fun front other hpre => hall front other ?_, hall l a (List.prefix_refl _)⟩
    exact hpre.trans (List.prefix_append _ _)
  · rintro ⟨hall, hlast⟩ front other hpre
    rcases List.prefix_concat_iff.mp hpre with hcase | hcase
    · obtain ⟨hfront, hother⟩ := List.append_inj' hcase rfl
      cases hother
      exact hfront ▸ hlast
    · exact hall front other hcase

theorem atEach_iff_take {l : List α} :
    AtEach p l ↔ ∀ i (h : i < l.length), p (l.take i) l[i] := by
  constructor
  · intro hall i hi
    refine hall _ _ ?_
    rw [List.take_concat_get' l i hi]
    exact List.take_prefix _ _
  · rintro hall front a ⟨back, rfl⟩
    have hi : front.length < (front ++ [a] ++ back).length := by simp
    have hlast := hall front.length hi
    simpa using hlast

instance [∀ front a, Decidable (p front a)] (l : List α) : Decidable (AtEach p l) :=
  decidable_of_iff _ atEach_iff_take.symm

/-- Two properties that agree on a call as long as the first held before it. -/
theorem atEach_iff_of_agree {l : List α}
    (h : ∀ front a, front ++ [a] <+: l → AtEach p front → (p front a ↔ q front a)) :
    AtEach p l ↔ AtEach q l := by
  induction l using List.reverseRecOn with
  | nil => exact iff_of_true .nil .nil
  | append_singleton l a ih =>
      have hfront := ih fun front other hpre =>
        h front other (hpre.trans (List.prefix_append _ _))
      rw [atEach_append, atEach_append, ← hfront]
      exact and_congr_right fun hall => h l a (List.prefix_refl _) hall

end FarsightDriver.Foundation
