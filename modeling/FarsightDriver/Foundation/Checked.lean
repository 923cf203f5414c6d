import Mathlib.Algebra.Order.Ring.Int

/-!
# Checked C operations

A C expression whose behaviour is undefined is a fault here: signed overflow,
a load or store outside its array, a null dereference.  A program that returns
`.ok` has therefore none of them.  The unsigned side follows the two data
models a Linux kernel is built for.
-/

namespace FarsightDriver.Foundation

inductive Fault where
  | signedOverflow
  | outOfBounds
  | nullPointer
  deriving DecidableEq, Repr

abbrev Checked := Except Fault

instance {α : Type*} [DecidableEq α] : DecidableEq (Checked α)
  | .ok a, .ok b => decidable_of_iff (a = b) (by simp)
  | .error e, .error f => decidable_of_iff (e = f) (by simp)
  | .ok _, .error _ => .isFalse (by simp)
  | .error _, .ok _ => .isFalse (by simp)

theorem bind_eq_ok {α β : Type*} {x : Checked α} {f : α → Checked β} {b : β} :
    x.bind f = .ok b ↔ ∃ a, x = .ok a ∧ f a = .ok b := by
  cases x with
  | ok a => simp [Except.bind]
  | error fault => simp [Except.bind]

def intMin : Int := -2147483648

def intMax : Int := 2147483647

/-- The value of an `int` expression whose mathematical result is `value`. -/
def checkedInt (value : Int) : Checked Int :=
  if intMin ≤ value ∧ value ≤ intMax then .ok value else .error .signedOverflow

theorem checkedInt_ok {value : Int} (hlow : intMin ≤ value)
    (hhigh : value ≤ intMax) : checkedInt value = .ok value :=
  if_pos ⟨hlow, hhigh⟩

theorem checkedInt_eq_ok {value result : Int} (h : checkedInt value = .ok result) :
    value = result := by
  unfold checkedInt at h
  split at h
  case isTrue => exact Except.ok.inj h
  case isFalse => cases h

def loadCell {α : Type*} {n : Nat} (cells : Vector α n) (index : Int) : Checked α :=
  if h : 0 ≤ index ∧ index < n then
    have : index.toNat < n := by omega
    .ok cells[index.toNat]
  else .error .outOfBounds

def storeCell {α : Type*} {n : Nat} (cells : Vector α n) (index : Int) (value : α) :
    Checked (Vector α n) :=
  if h : 0 ≤ index ∧ index < n then
    .ok (cells.set index.toNat value (by omega))
  else .error .outOfBounds

theorem loadCell_ok {α : Type*} {n : Nat} (cells : Vector α n) (i : Fin n) :
    loadCell cells (i.val : Int) = .ok cells[i] := by
  have hi := i.isLt
  simp [loadCell]

theorem storeCell_ok {α : Type*} {n : Nat} (cells : Vector α n) (i : Fin n)
    (value : α) :
    storeCell cells (i.val : Int) value = .ok (cells.set i.val value i.isLt) := by
  have hi := i.isLt
  simp [storeCell]

/-!
## Loops that count an `int` down

`while(n--)` tests the value that `n` has before it is decremented.  A loop that
starts below 0 never meets 0 and is stopped by the overflow.
-/

section Countdown

variable {σ : Type*} {body : σ → Checked σ}

/-- From the value `n` and the state `s`, the loop ends in `t`; its body has run `passes` times. -/
inductive Countdown (body : σ → Checked σ) : Int → σ → Nat → σ → Prop
  | done (s : σ) : Countdown body 0 s 0 s
  | pass {n m : Int} {s s' t : σ} {passes : Nat} (hn : n ≠ 0)
      (hpred : checkedInt (n - 1) = .ok m) (hbody : body s = .ok s')
      (rest : Countdown body m s' passes t) : Countdown body n s (passes + 1) t

theorem Countdown.start_eq {n : Int} {s t : σ} {passes : Nat}
    (h : Countdown body n s passes t) : n = passes := by
  induction h with
  | done s => rfl
  | pass hn hpred hbody rest ih =>
      have hvalue := checkedInt_eq_ok hpred
      push_cast
      omega

end Countdown

/-! ## Data models -/

inductive DataModel where
  | ilp32
  | lp64
  deriving DecidableEq, Repr

def DataModel.bits : DataModel → Nat
  | .ilp32 => 32
  | .lp64 => 64

abbrev SizeT (model : DataModel) := BitVec model.bits

def intToSizeT (model : DataModel) (value : Int) : SizeT model :=
  BitVec.ofInt model.bits value

def sizeTToSsizeT {model : DataModel} (value : SizeT model) : Int := value.toInt

/-- Conversion of a wider integer to the 32-bit `int`. -/
def toInt32 (value : Int) : Int := value.bmod (2 ^ 32)

theorem DataModel.two_pow_bits (model : DataModel) :
    2 ^ 32 ≤ 2 ^ model.bits := by
  cases model <;> simp [DataModel.bits]

theorem toInt32_of_small {value : Int} (hlow : 0 ≤ value)
    (hhigh : value < 2 ^ 31) : toInt32 value = value := by
  apply Int.bmod_eq_of_le <;> omega

theorem intToSizeT_toNat (model : DataModel) {value : Int} (hlow : 0 ≤ value)
    (hhigh : value < 2 ^ 32) : (intToSizeT model value).toNat = value.toNat := by
  have hbits := model.two_pow_bits
  rw [intToSizeT, BitVec.toNat_ofInt, Int.emod_eq_of_lt hlow (by omega)]

theorem sizeTToSsizeT_of_small {model : DataModel} {value : SizeT model}
    (h : value.toNat < 2 ^ 31) : sizeTToSsizeT value = value.toNat := by
  have hbits := model.two_pow_bits
  apply BitVec.toInt_eq_toNat_of_lt
  omega

end FarsightDriver.Foundation
