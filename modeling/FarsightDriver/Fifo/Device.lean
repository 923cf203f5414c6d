import FarsightDriver.Foundation.System
import FarsightDriver.Que.Refinement

/-!
# The FIFO character device

`myread` and `mywrite` of the `myfifo` drivers move bytes between user memory
and the queue through a stack buffer of 512 cells, whose contents are arbitrary
when a call starts.  User memory is seen through the kernel's copy functions:
the argument of `copyFromUser` is the list of the bytes that can be read from
the user pointer on, that of `copyToUser` is how many can be written there.
-/

namespace FarsightDriver.Fifo

open FarsightDriver.Foundation
open FarsightDriver.Que

def bufSize : Nat := 512

abbrev Buf := Vector DataT bufSize

def eio : Int := 5

/-- The target after the copy, and how many bytes were not copied. -/
def copyFromUser (target ubuffer : List DataT) (n : Nat) : Checked (List DataT × Nat) :=
  if target.length < n then .error .outOfBounds
  else
    let copied := ubuffer.take n
    .ok (copied ++ target.drop copied.length, n - copied.length)

/-- The bytes that reach the user, and how many were not copied. -/
def copyToUser (room : Nat) (source : List DataT) (n : Nat) : Checked (List DataT × Nat) :=
  if source.length < n then .error .outOfBounds
  else
    let copied := (source.take n).take room
    .ok (copied, n - copied.length)

variable {model : DataModel}

/-- The third argument of `enque` in `mywrite`. -/
def enqueSize (size : SizeT model) : Int :=
  let size := if size < 512 then size else 512
  toInt32 size.toNat

def mywrite (Q : QUE) (buf : Buf) (ubuffer : List DataT) (size : SizeT model) :
    Checked (QUE × Int) := do
  let clamped := if size < 512 then size else 512
  let (buf, uncopied) ← copyFromUser buf.toList ubuffer clamped.toNat
  if uncopied ≠ 0 then
    return (Q, -eio)
  let (Q, totalsize) ← enque Q buf (enqueSize size)
  return (Q, totalsize)

structure Read where
  que : QUE
  ret : Int
  copied : List DataT
  deriving DecidableEq

def readSize (Q : QUE) (size : SizeT model) : Int :=
  sizeTToSsizeT
    (if intToSizeT model (getQueNum Q) < size then intToSizeT model (getQueNum Q)
      else size)

/-- The third argument of `deque` in `myread`. -/
def dequeSize (Q : QUE) (size : SizeT model) : Int := toInt32 (readSize Q size)

def myread (Q : QUE) (buf : Buf) (size : SizeT model) (room : Nat) : Checked Read := do
  let totalsize := readSize Q size
  let (Q, buf, _) ← deque Q buf.toList (dequeSize Q size)
  let (copied, uncopied) ← copyToUser room buf (intToSizeT model totalsize).toNat
  if uncopied ≠ 0 then
    return ⟨Q, -eio, copied⟩
  return ⟨Q, totalsize, copied⟩

/--
`myread` of the drivers that block: `wait_event` does not return while the
queue is empty.
-/
def myreadBlocking (Q : QUE) (buf : Buf) (size : SizeT model) (room : Nat) :
    Option (Checked Read) :=
  if 0 ≠ getQueNum Q then some (myread Q buf size room) else none

/-! ## The clamps of different signedness -/

theorem intToSizeT_lt {num : Int} (hlow : 0 ≤ num) (hhigh : num ≤ queSize)
    (size : SizeT model) : intToSizeT model num < size ↔ num < size.toNat := by
  rw [queSize_eq] at hhigh
  rw [BitVec.lt_def, intToSizeT_toNat model hlow (by omega)]
  omega

theorem sizeTToSsizeT_intToSizeT {num : Int} (hlow : 0 ≤ num) (hhigh : num ≤ queSize) :
    sizeTToSsizeT (intToSizeT model num) = num := by
  rw [queSize_eq] at hhigh
  have htoNat := intToSizeT_toNat model hlow (by omega)
  rw [sizeTToSsizeT_of_small (by omega), htoNat]
  omega

theorem toInt32_index {value : Int} (hlow : 0 ≤ value) (hhigh : value ≤ queSize) :
    toInt32 value = value := by
  rw [queSize_eq] at hhigh
  exact toInt32_of_small hlow (by omega)

theorem readSize_eq {Q : QUE} (h : WellFormed Q) (size : SizeT model) :
    readSize Q size = min Q.num size.toNat := by
  have hnum := h.num_nonneg
  have hle := h.num_le
  unfold readSize getQueNum
  by_cases hlt : Q.num < size.toNat
  · rw [if_pos ((intToSizeT_lt hnum hle size).mpr hlt), sizeTToSsizeT_intToSizeT hnum hle]
    omega
  · rw [if_neg (fun hc => hlt ((intToSizeT_lt hnum hle size).mp hc))]
    rw [queSize_eq] at hle
    rw [sizeTToSsizeT_of_small (by omega)]
    omega

theorem clampSize_toNat (size : SizeT model) :
    (if size < 512 then size else 512).toNat = min size.toNat 512 := by
  have hbits := model.two_pow_bits
  have h512 : (512 : SizeT model).toNat = 512 := by
    cases model <;> rfl
  split
  case isTrue hlt =>
    rw [BitVec.lt_def, h512] at hlt
    omega
  case isFalse hge =>
    rw [BitVec.lt_def, h512] at hge
    omega

theorem buf_length (buf : Buf) : buf.toList.length = 512 := buf.length_toList

/-! ## What one call does -/

/-- What `mywrite` returns when the copy succeeds. -/
def writeCount (Q : QUE) (size : SizeT model) : Int :=
  min (min size.toNat 512) (queSize - Q.num)

def readCount (Q : QUE) (size : SizeT model) : Int := min size.toNat Q.num

theorem mywrite_fault (Q : QUE) (buf : Buf) {ubuffer : List DataT} {size : SizeT model}
    (hfault : ubuffer.length < min size.toNat 512) :
    mywrite Q buf ubuffer size = .ok (Q, -eio) := by
  have hlen : ¬ buf.toList.length < min size.toNat 512 := by
    rw [buf_length]
    omega
  simp only [mywrite, clampSize_toNat, copyFromUser, if_neg hlen, bind, Except.bind]
  rw [if_pos (by simp only [List.length_take]; omega)]
  rfl

theorem mywrite_spec {Q : QUE} (h : WellFormed Q) (buf : Buf) {ubuffer : List DataT}
    {size : SizeT model} (hread : min size.toNat 512 ≤ ubuffer.length) :
    ∃ Q', mywrite Q buf ubuffer size = .ok (Q', writeCount Q size) ∧ WellFormed Q' ∧
      Q'.num = Q.num + writeCount Q size ∧
      contents Q' = contents Q ++ ubuffer.take (writeCount Q size).toNat := by
  have hle := h.num_le
  have hlen : ¬ buf.toList.length < min size.toNat 512 := by
    rw [buf_length]
    omega
  have htake : (ubuffer.take (min size.toNat 512)).length = min size.toNat 512 := by
    rw [List.length_take]
    omega
  have hint : toInt32 (min size.toNat 512 : Nat) = (min size.toNat 512 : Nat) :=
    toInt32_index (by omega) (by rw [queSize_eq]; omega)
  obtain ⟨Q', hcall, hinv, hnum, hcontents⟩ :=
    enque_spec h (ubuffer.take (min size.toNat 512) ++
        buf.toList.drop (min size.toNat 512)) (Int.natCast_nonneg (min size.toNat 512))
      (by rw [List.length_append, htake]; omega)
  have hcount : min ((min size.toNat 512 : Nat) : Int) (queSize - Q.num) =
      writeCount Q size := by
    rw [writeCount]
    omega
  rw [hcount] at hcall hnum hcontents
  refine ⟨Q', ?_, hinv, hnum, ?_⟩
  · simp only [mywrite, enqueSize, clampSize_toNat, copyFromUser, if_neg hlen, bind, Except.bind,
      htake, Nat.sub_self, ne_eq, not_true_eq_false, if_false, hint, hcall]
    rfl
  · rw [hcontents, List.take_append_of_le_length (by rw [htake, writeCount]; omega),
      List.take_take, min_eq_left (by rw [writeCount]; omega)]

theorem myread_spec {Q : QUE} (h : WellFormed Q) (buf : Buf) {size : SizeT model} (room : Nat)
    (hfit : readCount Q size ≤ bufSize) :
    ∃ Q', myread Q buf size room =
        .ok (if readCount Q size ≤ room then
            ⟨Q', readCount Q size, (contents Q).take (readCount Q size).toNat⟩
          else ⟨Q', -eio, (contents Q).take room⟩) ∧
      WellFormed Q' ∧ Q'.num = Q.num - readCount Q size ∧
      contents Q' = (contents Q).drop (readCount Q size).toNat := by
  have hnum := h.num_nonneg
  have hle := h.num_le
  have hlen := contents_length Q
  have hcount : readSize Q size = readCount Q size := by
    rw [readSize_eq h, readCount, min_comm]
  have hmin : min (readCount Q size) Q.num = readCount Q size := by
    simp [readCount]
  have hnonneg : 0 ≤ readCount Q size := by
    simp only [readCount]
    omega
  have hbound : readCount Q size ≤ Q.num := min_le_right _ _
  have hint : toInt32 (readCount Q size) = readCount Q size :=
    toInt32_index hnonneg (by omega)
  have htoNat : (intToSizeT model (readCount Q size)).toNat = (readCount Q size).toNat := by
    rw [queSize_eq] at hle
    exact intToSizeT_toNat model hnonneg (by omega)
  obtain ⟨Q', hcall, hinv, hnum', hcontents⟩ :=
    deque_spec h buf.toList hnonneg (by rw [hmin, buf_length]; exact hfit)
  rw [hmin] at hcall hnum' hcontents
  refine ⟨Q', ?_, hinv, hnum', hcontents⟩
  have htake : ((contents Q).take (readCount Q size).toNat).length =
      (readCount Q size).toNat := by
    rw [List.length_take]
    omega
  have hsource : ¬ ((contents Q).take (readCount Q size).toNat ++
      buf.toList.drop (readCount Q size).toNat).length < (readCount Q size).toNat := by
    rw [List.length_append, htake]
    omega
  have hprefix : ((contents Q).take (readCount Q size).toNat ++
        buf.toList.drop (readCount Q size).toNat).take (readCount Q size).toNat =
      (contents Q).take (readCount Q size).toNat := by
    rw [List.take_left' htake]
  simp only [myread, dequeSize, hcount, hint, hcall, htoNat, bind, Except.bind, copyToUser,
    if_neg hsource, hprefix, List.length_take, hlen]
  by_cases hroom : readCount Q size ≤ room
  · rw [if_neg (by omega), if_pos hroom,
      List.take_of_length_le (show ((contents Q).take (readCount Q size).toNat).length ≤ room
        by rw [htake]; omega)]
    rfl
  · rw [if_pos (by omega), if_neg hroom, List.take_take, min_eq_left (by omega)]
    rfl

theorem myread_overrun {Q : QUE} (h : WellFormed Q) (buf : Buf) {size : SizeT model} (room : Nat)
    (hover : bufSize < readCount Q size) :
    myread Q buf size room = .error .outOfBounds := by
  have hle := h.num_le
  have hcount : readSize Q size = readCount Q size := by
    rw [readSize_eq h, readCount, min_comm]
  have hbound : readCount Q size ≤ Q.num := min_le_right _ _
  have hint : toInt32 (readCount Q size) = readCount Q size :=
    toInt32_index (by omega) (by omega)
  have hshort : buf.toList.length < min (readCount Q size) Q.num := by
    rw [min_eq_left hbound, buf_length]
    exact hover
  have hcall := deque_overrun h buf.toList hshort
  simp only [myread, dequeSize, hcount, hint, hcall, bind, Except.bind]

end FarsightDriver.Fifo
