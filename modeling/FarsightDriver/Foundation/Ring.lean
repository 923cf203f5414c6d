import Mathlib.Data.List.Basic
import Mathlib.Data.Nat.ModEq

/-!
# Circular windows

A ring is a vector of cells with a window of `num` consecutive positions that
starts at `head` and wraps at the end.  The window lemmas say how the list it
shows changes when a cell is stored behind it or its first cell is dropped.
-/

namespace FarsightDriver.Foundation.Ring

variable {α : Type*} {cap : Nat} [NeZero cap]

def window (cells : Vector α cap) (head num : Nat) : List α :=
  (List.range num).map fun i => cells[Fin.ofNat cap (head + i)]

@[simp] theorem window_length (cells : Vector α cap) (head num : Nat) :
    (window cells head num).length = num := by
  simp [window]

@[simp] theorem window_zero (cells : Vector α cap) (head : Nat) :
    window cells head 0 = [] := rfl

theorem window_succ (cells : Vector α cap) (head num : Nat) :
    window cells head (num + 1) =
      window cells head num ++ [cells[Fin.ofNat cap (head + num)]] := by
  simp [window, List.range_succ]

theorem window_cons (cells : Vector α cap) (head num : Nat) :
    window cells head (num + 1) =
      cells[Fin.ofNat cap head] ::
        window cells ((head + 1) % cap) num := by
  simp only [window, List.range_succ_eq_map, List.map_cons, List.map_map,
    Nat.add_zero, List.cons.injEq, true_and]
  apply List.map_congr_left
  intro i _
  have hindex : Fin.ofNat cap (head + (i + 1)) =
      Fin.ofNat cap ((head + 1) % cap + i) := by
    apply Fin.ext
    simp only [Fin.val_ofNat, Nat.mod_add_mod]
    congr 1
    omega
  exact congrArg (fun j : Fin cap => cells[j]) hindex

theorem offset_injective {head i j : Nat} (hi : i < cap) (hj : j < cap)
    (h : Fin.ofNat cap (head + i) = Fin.ofNat cap (head + j)) : i = j := by
  have hmod : head + i ≡ head + j [MOD cap] := by
    simpa [Fin.ext_iff, Nat.ModEq] using h
  exact Nat.ModEq.eq_of_lt_of_lt (Nat.ModEq.add_left_cancel' head hmod) hi hj

theorem window_set (cells : Vector α cap) (head num : Nat) (value : α)
    (hnum : num < cap) :
    window
        (cells.set (Fin.ofNat cap (head + num)).val value
          (Fin.ofNat cap (head + num)).isLt)
        head num =
      window cells head num := by
  apply List.map_congr_left
  intro i hi
  have hlt : i < num := List.mem_range.mp hi
  have hne : (Fin.ofNat cap (head + num)).val ≠ (Fin.ofNat cap (head + i)).val := by
    intro h
    have := offset_injective hnum (by omega) (Fin.ext h)
    omega
  simp only [Fin.getElem_fin]
  exact Vector.getElem_set_ne _ _ hne

theorem window_push (cells : Vector α cap) (head num : Nat) (value : α)
    (hnum : num < cap) :
    window
        (cells.set (Fin.ofNat cap (head + num)).val value
          (Fin.ofNat cap (head + num)).isLt)
        head (num + 1) =
      window cells head num ++ [value] := by
  rw [window_succ, window_set cells head num value hnum]
  simp

end FarsightDriver.Foundation.Ring
