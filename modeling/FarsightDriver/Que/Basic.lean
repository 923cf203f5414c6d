import FarsightDriver.Foundation.Checked
import FarsightDriver.Foundation.Ring

/-!
# The QUE byte queue

`que.c` keeps bytes in a cyclic array with three redundant fields: the position
`head` of the oldest byte, the position `tail` of the newest one (`-1` in a
fresh queue) and the number `num` of bytes.  A caller's buffer is the list of
the bytes from its pointer on, so running past it is a fault.
-/

namespace FarsightDriver.Que

open FarsightDriver.Foundation

def queSize : Nat := 10240

instance : NeZero queSize := ⟨by decide⟩

abbrev DataT := UInt8

structure QUE where
  data : Vector DataT queSize
  head : Int
  tail : Int
  num : Int
  deriving DecidableEq

def zeroed : QUE := ⟨Vector.replicate queSize 0, 0, 0, 0⟩

/-- The argument is what `kmalloc` returns; its failure is not checked. -/
def createQue : Option QUE → Checked QUE
  | none => .error .nullPointer
  | some _ => .ok { zeroed with tail := -1 }

def initQue (_ : QUE) : QUE × Int :=
  ({ zeroed with tail := -1 }, 0)

def isfullQue (Q : QUE) : Bool := (queSize : Int) == Q.num

/-- The loop `while(n--)` of `enque`. -/
def enqueLoop (Q : QUE) (data : List DataT) (n : Int) : Checked QUE :=
  if n = 0 then .ok Q
  else
    match data with
    | [] => .error .outOfBounds
    | byte :: rest => do
        let n ← checkedInt (n - 1)
        let next ← checkedInt (Q.tail + 1)
        let tail := next.tmod queSize
        let cells ← storeCell Q.data tail byte
        enqueLoop { Q with data := cells, tail := tail } rest n

@[simp] theorem enqueLoop_zero (Q : QUE) (data : List DataT) :
    enqueLoop Q data 0 = .ok Q := by
  unfold enqueLoop
  exact if_pos rfl

def enque (Q : QUE) (data : List DataT) (size : Int) : Checked (QUE × Int) :=
  if isfullQue Q then .ok (Q, 0)
  else do
    let free ← checkedInt (queSize - Q.num)
    let size := if size < free then size else free
    let Q ← enqueLoop Q data size
    let num ← checkedInt (Q.num + size)
    return ({ Q with num := num }, size)

/-- The loop `while(n--)` of `deque`; it returns the caller's buffer as well. -/
def dequeLoop (Q : QUE) (data : List DataT) (n : Int) : Checked (QUE × List DataT) :=
  if n = 0 then .ok (Q, data)
  else
    match data with
    | [] => .error .outOfBounds
    | _ :: rest => do
        let n ← checkedInt (n - 1)
        let byte ← loadCell Q.data Q.head
        let next ← checkedInt (Q.head + 1)
        let (Q, rest) ← dequeLoop { Q with head := next.tmod queSize } rest n
        return (Q, byte :: rest)

@[simp] theorem dequeLoop_zero (Q : QUE) (data : List DataT) :
    dequeLoop Q data 0 = .ok (Q, data) := by
  unfold dequeLoop
  exact if_pos rfl

def deque (Q : QUE) (data : List DataT) (size : Int) :
    Checked (QUE × List DataT × Int) := do
  let size := if size < Q.num then size else Q.num
  let (Q, data) ← dequeLoop Q data size
  let num ← checkedInt (Q.num - size)
  return ({ Q with num := num }, data, size)

def getQueNum (Q : QUE) : Int := Q.num

def contents (Q : QUE) : List DataT :=
  Ring.window Q.data Q.head.toNat Q.num.toNat

end FarsightDriver.Que
