import Mathlib.Data.BitVec
import Mathlib.Logic.Function.Basic

/-!
# Masked updates of a word

A register is changed by reading it, clearing some of its bits, setting others
and writing it back.  Such updates compose to one update, and each bit of the
result comes from one of three places.
-/

namespace FarsightDriver.Foundation

/-- `data & ~clear | set`. -/
structure Masked (w : Nat) where
  clear : BitVec w
  set : BitVec w
  deriving DecidableEq

namespace Masked

variable {w : Nat}

def apply (u : Masked w) (data : BitVec w) : BitVec w := data &&& ~~~u.clear ||| u.set

def andThen (first second : Masked w) : Masked w :=
  ⟨first.clear ||| second.clear, first.set &&& ~~~second.clear ||| second.set⟩

def assign (value : BitVec w) : Masked w := ⟨BitVec.allOnes w, value⟩

theorem getLsbD_apply (u : Masked w) (data : BitVec w) (i : Nat) :
    (u.apply data).getLsbD i = (data.getLsbD i && !u.clear.getLsbD i || u.set.getLsbD i) := by
  rw [apply, BitVec.getLsbD_or, BitVec.getLsbD_and, BitVec.getLsbD_not]
  by_cases hi : i < w
  · simp [hi]
  · simp [BitVec.getLsbD_of_ge _ i (Nat.le_of_not_lt hi)]

theorem apply_andThen (first second : Masked w) (data : BitVec w) :
    (first.andThen second).apply data = second.apply (first.apply data) := by
  apply BitVec.eq_of_getLsbD_eq
  intro i hi
  simp only [getLsbD_apply, andThen, BitVec.getLsbD_or, BitVec.getLsbD_and, BitVec.getLsbD_not, hi,
    decide_true, Bool.true_and]
  cases data.getLsbD i <;> cases first.clear.getLsbD i <;> cases second.clear.getLsbD i <;> simp

@[simp] theorem apply_assign (value data : BitVec w) : (assign value).apply data = value := by
  simp [assign, apply]

theorem getLsbD_of_spared {u : Masked w} {i : Nat} (hclear : u.clear.getLsbD i = false)
    (hset : u.set.getLsbD i = false) (data : BitVec w) :
    (u.apply data).getLsbD i = data.getLsbD i := by
  simp [getLsbD_apply, hclear, hset]

theorem getLsbD_of_set {u : Masked w} {i : Nat} (hset : u.set.getLsbD i = true) (data : BitVec w) :
    (u.apply data).getLsbD i = true := by
  simp [getLsbD_apply, hset]

theorem getLsbD_of_cleared {u : Masked w} {i : Nat} (hclear : u.clear.getLsbD i = true)
    (hset : u.set.getLsbD i = false) (data : BitVec w) : (u.apply data).getLsbD i = false := by
  simp [getLsbD_apply, hclear, hset]

theorem getLsbD_of_unset {u : Masked w} {i : Nat} (hset : u.set.getLsbD i = false)
    {data : BitVec w} (hdata : data.getLsbD i = false) : (u.apply data).getLsbD i = false := by
  simp [getLsbD_apply, hset, hdata]

theorem getLsbD_of_toNat_lt {value : BitVec w} {n i : Nat} (h : value.toNat < 2 ^ n) (hi : n ≤ i) :
    value.getLsbD i = false :=
  Nat.testBit_lt_two_pow (lt_of_lt_of_le h (Nat.pow_le_pow_right (by decide) hi))

/-! ## Registers -/

section Store

variable {A : Type*} [DecidableEq A]

/-- The update of one register of a block. -/
def store (u : Masked w) (addr : A) (mem : A → BitVec w) : A → BitVec w :=
  Function.update mem addr (u.apply (mem addr))

@[simp] theorem store_self (u : Masked w) (addr : A) (mem : A → BitVec w) :
    u.store addr mem addr = u.apply (mem addr) :=
  Function.update_self ..

@[simp] theorem store_of_ne (u : Masked w) {addr other : A} (h : other ≠ addr)
    (mem : A → BitVec w) : u.store addr mem other = mem other :=
  Function.update_of_ne h ..

theorem store_comm (u v : Masked w) {addr other : A} (h : addr ≠ other) (mem : A → BitVec w) :
    u.store addr (v.store other mem) = v.store other (u.store addr mem) := by
  simp only [store, Function.update_of_ne h, Function.update_of_ne h.symm]
  exact Function.update_comm h.symm ..

end Store

end Masked

end FarsightDriver.Foundation
