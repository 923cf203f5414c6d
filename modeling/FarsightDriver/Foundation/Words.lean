import Mathlib.Data.BitVec

/-!
# Words in memory

A 32-bit word lies in memory as four bytes, the lowest first.  Structures of
words are copied byte by byte, so a copy may stop inside a word.
-/

namespace FarsightDriver.Foundation

abbrev U32 := BitVec 32

namespace Words

def wordBytes (word : U32) : List UInt8 :=
  [UInt8.ofNat word.toNat, UInt8.ofNat (word.toNat / 2 ^ 8),
    UInt8.ofNat (word.toNat / 2 ^ 16), UInt8.ofNat (word.toNat / 2 ^ 24)]

def ofWordBytes (b₀ b₁ b₂ b₃ : UInt8) : U32 :=
  BitVec.ofNat 32
    (b₀.toNat + b₁.toNat * 2 ^ 8 + b₂.toNat * 2 ^ 16 + b₃.toNat * 2 ^ 24)

theorem ofWordBytes_wordBytes (word : U32) :
    ofWordBytes (UInt8.ofNat word.toNat) (UInt8.ofNat (word.toNat / 2 ^ 8))
      (UInt8.ofNat (word.toNat / 2 ^ 16)) (UInt8.ofNat (word.toNat / 2 ^ 24)) = word := by
  have hlt := word.isLt
  apply BitVec.eq_of_toNat_eq
  simp only [ofWordBytes, BitVec.toNat_ofNat, UInt8.toNat_ofNat']
  omega

def toBytes (words : List U32) : List UInt8 := words.flatMap wordBytes

/-- The words that a byte string is made of; an incomplete one at its end is left out. -/
def ofBytes : List UInt8 → List U32
  | b₀ :: b₁ :: b₂ :: b₃ :: rest => ofWordBytes b₀ b₁ b₂ b₃ :: ofBytes rest
  | _ => []

theorem toBytes_cons (word : U32) (words : List U32) :
    toBytes (word :: words) = wordBytes word ++ toBytes words :=
  List.flatMap_cons

theorem ofBytes_toBytes (words : List U32) : ofBytes (toBytes words) = words := by
  induction words with
  | nil => rfl
  | cons word words ih =>
      rw [toBytes_cons, wordBytes]
      simp only [List.cons_append, List.nil_append, ofBytes, ih, ofWordBytes_wordBytes]

theorem toBytes_length (words : List U32) : (toBytes words).length = 4 * words.length := by
  induction words with
  | nil => rfl
  | cons word words ih =>
      rw [toBytes_cons, List.length_append, ih, List.length_cons, wordBytes]
      simp only [List.length_cons, List.length_nil]
      omega

theorem wordBytes_ofWordBytes (b₀ b₁ b₂ b₃ : UInt8) :
    wordBytes (ofWordBytes b₀ b₁ b₂ b₃) = [b₀, b₁, b₂, b₃] := by
  have h₀ := b₀.toNat_lt
  have h₁ := b₁.toNat_lt
  have h₂ := b₂.toNat_lt
  have h₃ := b₃.toNat_lt
  simp only [wordBytes, ofWordBytes, BitVec.toNat_ofNat, List.cons.injEq, ← UInt8.toNat_inj,
    UInt8.toNat_ofNat', and_true]
  omega

theorem toBytes_ofBytes {n : Nat} {bytes : List UInt8} (h : bytes.length = 4 * n) :
    toBytes (ofBytes bytes) = bytes := by
  induction n generalizing bytes with
  | zero => rw [List.length_eq_zero_iff.mp h]; rfl
  | succ n ih =>
      match bytes with
      | b₀ :: b₁ :: b₂ :: b₃ :: rest =>
          have hrest : rest.length = 4 * n := by
            simp only [List.length_cons] at h
            omega
          rw [ofBytes, toBytes_cons, wordBytes_ofWordBytes, ih hrest]
          rfl
      | [] | [_] | [_, _] | [_, _, _] =>
          simp only [List.length_cons, List.length_nil] at h
          omega

theorem toBytes_injective : Function.Injective toBytes :=
  Function.LeftInverse.injective ofBytes_toBytes

end Words

end FarsightDriver.Foundation
