import Mathlib.Data.List.Basic

/-!
# Accounts of a shared store of items

A ledger records what was put into a first-in first-out store and what each
process took out of it, one entry for each removal.  It balances when the items
put in are the removals in order followed by what is left: no item is lost
between the two sides, removed twice or removed out of turn.
-/

namespace FarsightDriver.Foundation

structure Ledger (P α : Type*) where
  accepted : List α
  removals : List (P × List α)

namespace Ledger

variable {P α : Type*}

def empty : Ledger P α := ⟨[], []⟩

def accept (ledger : Ledger P α) (items : List α) : Ledger P α :=
  { ledger with accepted := ledger.accepted ++ items }

def remove (ledger : Ledger P α) (p : P) (items : List α) : Ledger P α :=
  { ledger with removals := ledger.removals ++ [(p, items)] }

def Balances (ledger : Ledger P α) (stock : List α) : Prop :=
  ledger.accepted = (ledger.removals.map Prod.snd).flatten ++ stock

theorem Balances.empty : (empty : Ledger P α).Balances [] := rfl

theorem Balances.accept {ledger : Ledger P α} {stock : List α} (h : ledger.Balances stock)
    (items : List α) : (ledger.accept items).Balances (stock ++ items) := by
  unfold Balances at h ⊢
  simp only [Ledger.accept, h, List.append_assoc]

theorem Balances.remove {ledger : Ledger P α} {stock : List α} (h : ledger.Balances stock)
    (p : P) (n : Nat) : (ledger.remove p (stock.take n)).Balances (stock.drop n) := by
  unfold Balances at h ⊢
  simp [Ledger.remove, h]

def Extends (old new : Ledger P α) : Prop :=
  ∀ (i : Nat) (entry : P × List α),
    old.removals[i]? = some entry → new.removals[i]? = some entry

theorem Extends.refl (ledger : Ledger P α) : ledger.Extends ledger :=
  fun _ _ hi => hi

theorem extends_remove (ledger : Ledger P α) (p : P) (items : List α) :
    ledger.Extends (ledger.remove p items) := by
  intro i entry hentry
  obtain ⟨hi, -⟩ := List.getElem?_eq_some_iff.mp hentry
  simp only [remove]
  rw [List.getElem?_append_left hi, hentry]

theorem removals_remove_self (ledger : Ledger P α) (p : P) (items : List α) :
    (ledger.remove p items).removals[ledger.removals.length]? = some (p, items) := by
  simp [remove]

end Ledger

end FarsightDriver.Foundation
