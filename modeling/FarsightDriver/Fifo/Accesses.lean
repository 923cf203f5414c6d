import FarsightDriver.Fifo.Sequential
import FarsightDriver.Foundation.Serial

/-!
# The accesses of one call

`myread` and `mywrite` of the drivers with an exclusive open take no lock
around the queue.  Here a call is the sequence of its loads and stores of the
fields `head`, `tail` and `num` and of the cells of `data`; what it computes on
its own stack belongs to the access before.  Run without a pause, the accesses
are the functions of the queue.
-/

namespace FarsightDriver.Fifo.Accesses

open FarsightDriver.Foundation
open FarsightDriver.Que

/-- What a `myread` keeps on its stack: `filled ++ data` is its buffer, `data` starts at the
pointer that `deque` moves. -/
structure Reading where
  totalsize : Int
  room : Nat
  filled : List DataT
  data : List DataT

inductive Pc (model : DataModel) where
  | write (buf : Buf) (ubuffer : List DataT) (size : SizeT model)
  | enque (data : List DataT) (size : Int)
  | enqueCompare (data : List DataT) (size : Int)
  | enqueChoose (data : List DataT)
  | enqueLoop (data : List DataT) (n size : Int)
  | enqueTailLoad (byte : DataT) (rest : List DataT) (n size : Int)
  | enqueTailStore (byte : DataT) (rest : List DataT) (n size tail : Int)
  | enqueIndex (byte : DataT) (rest : List DataT) (n size : Int)
  | enqueCell (byte : DataT) (rest : List DataT) (n size index : Int)
  | enqueNumLoad (size : Int)
  | enqueNumStore (size num : Int)
  | read (buf : Buf) (size : SizeT model) (room : Nat)
  | readChoose (buf : Buf) (room : Nat)
  | dequeCompare (reading : Reading) (size : Int)
  | dequeChoose (reading : Reading)
  | dequeLoop (reading : Reading) (n size : Int)
  | dequeIndex (reading : Reading) (rest : List DataT) (n size : Int)
  | dequeCell (reading : Reading) (rest : List DataT) (n size index : Int)
  | dequeHeadLoad (reading : Reading) (n size : Int)
  | dequeHeadStore (reading : Reading) (n size head : Int)
  | dequeNumLoad (reading : Reading) (size : Int)
  | dequeNumStore (reading : Reading) (num : Int)
  | copy (reading : Reading)

structure Reply where
  ret : Int
  copied : List DataT
  deriving DecidableEq

variable {model : DataModel}

def start : Call model → Pc model
  | .write buf ubuffer size => .write buf ubuffer size
  | .read buf size room => .read buf size room

/-- `myread` after it has chosen `totalsize`. -/
def startDeque (buf : Buf) (room : Nat) (totalsize : Int) : Pc model :=
  .dequeCompare ⟨totalsize, room, [], buf.toList⟩ (toInt32 totalsize)

def Reading.reply (model : DataModel) (reading : Reading) : Checked Reply := do
  let (copied, uncopied) ← copyToUser reading.room (reading.filled ++ reading.data)
    (intToSizeT model reading.totalsize).toNat
  if uncopied ≠ 0 then
    return ⟨-eio, copied⟩
  return ⟨reading.totalsize, copied⟩

def step (Q : QUE) : Pc model → Checked (QUE × (Pc model ⊕ Reply))
  | .write buf ubuffer size => do
      let size := if size < 512 then size else 512
      let (buf, uncopied) ← copyFromUser buf.toList ubuffer size.toNat
      if uncopied ≠ 0 then
        return (Q, .inr ⟨-eio, []⟩)
      return (Q, .inl (.enque buf (toInt32 size.toNat)))
  | .enque data size =>
      if isfullQue Q then return (Q, .inr ⟨0, []⟩)
      else return (Q, .inl (.enqueCompare data size))
  | .enqueCompare data size => do
      let free ← checkedInt (queSize - Q.num)
      return (Q, .inl (if size < free then .enqueLoop data size size else .enqueChoose data))
  | .enqueChoose data => do
      let size ← checkedInt (queSize - Q.num)
      return (Q, .inl (.enqueLoop data size size))
  | .enqueLoop data n size =>
      if n = 0 then return (Q, .inl (.enqueNumLoad size))
      else
        match data with
        | [] => .error .outOfBounds
        | byte :: rest => do
            let n ← checkedInt (n - 1)
            return (Q, .inl (.enqueTailLoad byte rest n size))
  | .enqueTailLoad byte rest n size => do
      let next ← checkedInt (Q.tail + 1)
      return (Q, .inl (.enqueTailStore byte rest n size (next.tmod queSize)))
  | .enqueTailStore byte rest n size tail =>
      return ({ Q with tail := tail }, .inl (.enqueIndex byte rest n size))
  | .enqueIndex byte rest n size => return (Q, .inl (.enqueCell byte rest n size Q.tail))
  | .enqueCell byte rest n size index => do
      let cells ← storeCell Q.data index byte
      return ({ Q with data := cells }, .inl (.enqueLoop rest n size))
  | .enqueNumLoad size => do
      let num ← checkedInt (Q.num + size)
      return (Q, .inl (.enqueNumStore size num))
  | .enqueNumStore size num => return ({ Q with num := num }, .inr ⟨size, []⟩)
  | .read buf size room =>
      if intToSizeT model (getQueNum Q) < size then return (Q, .inl (.readChoose buf room))
      else return (Q, .inl (startDeque buf room (sizeTToSsizeT size)))
  | .readChoose buf room =>
      let totalsize := sizeTToSsizeT (intToSizeT model (getQueNum Q))
      return (Q, .inl (startDeque buf room totalsize))
  | .dequeCompare reading size =>
      return (Q, .inl (if size < Q.num then .dequeLoop reading size size
        else .dequeChoose reading))
  | .dequeChoose reading => return (Q, .inl (.dequeLoop reading Q.num Q.num))
  | .dequeLoop reading n size =>
      if n = 0 then return (Q, .inl (.dequeNumLoad reading size))
      else
        match reading.data with
        | [] => .error .outOfBounds
        | _ :: rest => do
            let n ← checkedInt (n - 1)
            return (Q, .inl (.dequeIndex reading rest n size))
  | .dequeIndex reading rest n size => return (Q, .inl (.dequeCell reading rest n size Q.head))
  | .dequeCell reading rest n size index => do
      let byte ← loadCell Q.data index
      return (Q, .inl (.dequeHeadLoad
        { reading with filled := reading.filled ++ [byte], data := rest } n size))
  | .dequeHeadLoad reading n size => do
      let next ← checkedInt (Q.head + 1)
      return (Q, .inl (.dequeHeadStore reading n size (next.tmod queSize)))
  | .dequeHeadStore reading n size head =>
      return ({ Q with head := head }, .inl (.dequeLoop reading n size))
  | .dequeNumLoad reading size => do
      let num ← checkedInt (Q.num - size)
      return (Q, .inl (.dequeNumStore reading num))
  | .dequeNumStore reading num => return ({ Q with num := num }, .inl (.copy reading))
  | .copy reading => do
      let reply ← reading.reply model
      return (Q, .inr reply)

def program (model : DataModel) :
    Serial.Program QUE (Call model) (Pc model) Reply Fault where
  start := start
  step := step

/-! ## What the accesses amount to -/

/-- One whole call, as the functions of the queue make it. -/
def serve (Q : QUE) : Call model → Checked (QUE × Reply)
  | .write buf ubuffer size => do
      let (Q, ret) ← mywrite Q buf ubuffer size
      return (Q, ⟨ret, []⟩)
  | .read buf size room => do
      let result ← myread Q buf size room
      return (result.que, ⟨result.ret, result.copied⟩)

def enqueRest (Q : QUE) (data : List DataT) (n size : Int) : Checked (QUE × Reply) := do
  let Q ← Que.enqueLoop Q data n
  let num ← checkedInt (Q.num + size)
  return ({ Q with num := num }, ⟨size, []⟩)

def copyRest (model : DataModel) (Q : QUE) (reading : Reading) : Checked (QUE × Reply) := do
  let reply ← reading.reply model
  return (Q, reply)

def dequeRest (model : DataModel) (Q : QUE) (reading : Reading) (n size : Int) :
    Checked (QUE × Reply) := do
  let (Q, data) ← Que.dequeLoop Q reading.data n
  let num ← checkedInt (Q.num - size)
  copyRest model { Q with num := num } { reading with data := data }

def dequeWhole (model : DataModel) (Q : QUE) (reading : Reading) (size : Int) :
    Checked (QUE × Reply) :=
  let size := if size < Q.num then size else Q.num
  dequeRest model Q reading size size

/-- What is left of a call from a program point on. -/
def remaining (Q : QUE) : Pc model → Checked (QUE × Reply)
  | .write buf ubuffer size => serve Q (.write buf ubuffer size)
  | .enque data size => do
      let (Q, ret) ← Que.enque Q data size
      return (Q, ⟨ret, []⟩)
  | .enqueCompare data size => do
      let free ← checkedInt (queSize - Q.num)
      let size := if size < free then size else free
      enqueRest Q data size size
  | .enqueChoose data => do
      let size ← checkedInt (queSize - Q.num)
      enqueRest Q data size size
  | .enqueLoop data n size => enqueRest Q data n size
  | .enqueTailLoad byte rest n size => do
      let next ← checkedInt (Q.tail + 1)
      let tail := next.tmod queSize
      let cells ← storeCell Q.data tail byte
      enqueRest { Q with data := cells, tail := tail } rest n size
  | .enqueTailStore byte rest n size tail => do
      let cells ← storeCell Q.data tail byte
      enqueRest { Q with data := cells, tail := tail } rest n size
  | .enqueIndex byte rest n size => do
      let cells ← storeCell Q.data Q.tail byte
      enqueRest { Q with data := cells } rest n size
  | .enqueCell byte rest n size index => do
      let cells ← storeCell Q.data index byte
      enqueRest { Q with data := cells } rest n size
  | .enqueNumLoad size => do
      let num ← checkedInt (Q.num + size)
      return ({ Q with num := num }, ⟨size, []⟩)
  | .enqueNumStore size num => return ({ Q with num := num }, ⟨size, []⟩)
  | .read buf size room => serve Q (.read buf size room)
  | .readChoose buf room =>
      let totalsize := sizeTToSsizeT (intToSizeT model (getQueNum Q))
      dequeWhole model Q ⟨totalsize, room, [], buf.toList⟩ (toInt32 totalsize)
  | .dequeCompare reading size => dequeWhole model Q reading size
  | .dequeChoose reading => dequeRest model Q reading Q.num Q.num
  | .dequeLoop reading n size => dequeRest model Q reading n size
  | .dequeIndex reading rest n size => do
      let byte ← loadCell Q.data Q.head
      let next ← checkedInt (Q.head + 1)
      dequeRest model { Q with head := next.tmod queSize }
        { reading with filled := reading.filled ++ [byte], data := rest } n size
  | .dequeCell reading rest n size index => do
      let byte ← loadCell Q.data index
      let next ← checkedInt (Q.head + 1)
      dequeRest model { Q with head := next.tmod queSize }
        { reading with filled := reading.filled ++ [byte], data := rest } n size
  | .dequeHeadLoad reading n size => do
      let next ← checkedInt (Q.head + 1)
      dequeRest model { Q with head := next.tmod queSize } reading n size
  | .dequeHeadStore reading n size head =>
      dequeRest model { Q with head := head } reading n size
  | .dequeNumLoad reading size => do
      let num ← checkedInt (Q.num - size)
      copyRest model { Q with num := num } reading
  | .dequeNumStore reading num => copyRest model { Q with num := num } reading
  | .copy reading => copyRest model Q reading

theorem remaining_start (Q : QUE) (call : Call model) :
    remaining Q (start call) = serve Q call := by
  cases call <;> rfl

/-! ## One access and what remains after it -/

theorem remaining_write (Q : QUE) (buf : Buf) (ubuffer : List DataT) (size : SizeT model) :
    remaining Q (.write buf ubuffer size) = (do
      let size := if size < 512 then size else 512
      let (buf, uncopied) ← copyFromUser buf.toList ubuffer size.toNat
      if uncopied ≠ 0 then
        return (Q, ⟨-eio, []⟩)
      @remaining model Q (.enque buf (toInt32 size.toNat))) := by
  simp only [remaining, serve, mywrite, enqueSize, bind, Except.bind]
  cases copyFromUser buf.toList ubuffer (if size < 512 then size else 512).toNat with
  | error fault => rfl
  | ok result =>
      by_cases huncopied : result.2 ≠ 0
      · simp only [if_pos huncopied]
        rfl
      · simp only [if_neg huncopied]
        cases Que.enque Q result.1 (toInt32 (if size < 512 then size else 512).toNat) <;> rfl

theorem remaining_enque (Q : QUE) (data : List DataT) (size : Int) :
    @remaining model Q (.enque data size) =
      if isfullQue Q then .ok (Q, ⟨0, []⟩)
      else @remaining model Q (.enqueCompare data size) := by
  simp only [remaining, Que.enque, enqueRest, bind, Except.bind]
  cases isfullQue Q with
  | true => rfl
  | false =>
      simp only [Bool.false_eq_true, if_false]
      cases checkedInt (queSize - Q.num) with
      | error fault => rfl
      | ok free =>
          simp only []
          cases Que.enqueLoop Q data (if size < free then size else free) with
          | error fault => rfl
          | ok Q =>
              simp only []
              cases checkedInt (Q.num + if size < free then size else free) <;> rfl

theorem remaining_enqueCompare (Q : QUE) (data : List DataT) (size : Int) :
    @remaining model Q (.enqueCompare data size) = (do
      let free ← checkedInt (queSize - Q.num)
      @remaining model Q (if size < free then .enqueLoop data size size
        else .enqueChoose data)) := by
  simp only [remaining, bind, Except.bind]
  cases hfree : checkedInt (queSize - Q.num) with
  | error fault => rfl
  | ok free =>
      by_cases hlt : size < free
      · simp only [if_pos hlt]
      · simp only [if_neg hlt]

theorem remaining_enqueLoop (Q : QUE) (data : List DataT) (n size : Int) :
    @remaining model Q (.enqueLoop data n size) =
      if n = 0 then @remaining model Q (.enqueNumLoad size)
      else
        match data with
        | [] => .error .outOfBounds
        | byte :: rest =>
            (checkedInt (n - 1)).bind fun n =>
              @remaining model Q (.enqueTailLoad byte rest n size) := by
  simp only [remaining, enqueRest]
  by_cases hn : n = 0
  · simp only [hn, enqueLoop_zero]
    rfl
  · rw [Que.enqueLoop.eq_def, if_neg hn, if_neg hn]
    cases data with
    | nil => rfl
    | cons byte rest =>
        simp only [bind, Except.bind]
        cases checkedInt (n - 1) with
        | error fault => rfl
        | ok n =>
            simp only []
            cases checkedInt (Q.tail + 1) with
            | error fault => rfl
            | ok next =>
                simp only []
                cases storeCell Q.data (next.tmod queSize) byte <;> rfl

theorem dequeWhole_eq (Q : QUE) (buf : Buf) (room : Nat) (totalsize : Int) :
    dequeWhole model Q ⟨totalsize, room, [], buf.toList⟩ (toInt32 totalsize) = (do
      let (Q, buf, _) ← Que.deque Q buf.toList (toInt32 totalsize)
      copyRest model Q ⟨totalsize, room, [], buf⟩) := by
  simp only [dequeWhole, dequeRest, Que.deque, bind, Except.bind]
  cases Que.dequeLoop Q buf.toList
      (if toInt32 totalsize < Q.num then toInt32 totalsize else Q.num) with
  | error fault => rfl
  | ok result =>
      simp only []
      cases checkedInt (result.1.num -
        if toInt32 totalsize < Q.num then toInt32 totalsize else Q.num) <;> rfl

theorem remaining_read (Q : QUE) (buf : Buf) (size : SizeT model) (room : Nat) :
    remaining Q (.read buf size room) =
      if intToSizeT model (getQueNum Q) < size then @remaining model Q (.readChoose buf room)
      else @remaining model Q (startDeque buf room (sizeTToSsizeT size)) := by
  have hwhole : remaining Q (.read buf size room) =
      @remaining model Q (startDeque buf room (readSize Q size)) := by
    simp only [remaining, startDeque, dequeWhole_eq, serve, myread, dequeSize, copyRest,
      Reading.reply, bind, Except.bind, List.nil_append]
    cases Que.deque Q buf.toList (toInt32 (readSize Q size)) with
    | error fault => rfl
    | ok result =>
        simp only []
        cases copyToUser room result.2.1 (intToSizeT model (readSize Q size)).toNat with
        | error fault => rfl
        | ok copied =>
            by_cases huncopied : copied.2 ≠ 0
            · simp only [if_pos huncopied]
              rfl
            · simp only [if_neg huncopied]
              rfl
  rw [hwhole, readSize]
  split <;> rfl

theorem remaining_dequeCompare (Q : QUE) (reading : Reading) (size : Int) :
    @remaining model Q (.dequeCompare reading size) =
      @remaining model Q (if size < Q.num then .dequeLoop reading size size
        else .dequeChoose reading) := by
  simp only [remaining, dequeWhole]
  split <;> rfl

/-- The byte that `deque` has just stored is the last of `filled` or the first of `data`. -/
theorem copyRest_append (Q : QUE) (reading : Reading) (byte : DataT) (data : List DataT) :
    copyRest model Q { reading with filled := reading.filled ++ [byte], data := data } =
      copyRest model Q { reading with data := byte :: data } := by
  simp only [copyRest, Reading.reply, List.append_assoc, List.singleton_append]

theorem remaining_dequeLoop (Q : QUE) (reading : Reading) (n size : Int) :
    @remaining model Q (.dequeLoop reading n size) =
      if n = 0 then @remaining model Q (.dequeNumLoad reading size)
      else
        match reading.data with
        | [] => .error .outOfBounds
        | _ :: rest =>
            (checkedInt (n - 1)).bind fun n =>
              @remaining model Q (.dequeIndex reading rest n size) := by
  simp only [remaining, dequeRest]
  by_cases hn : n = 0
  · simp only [hn, dequeLoop_zero]
    rfl
  · rw [Que.dequeLoop.eq_def, if_neg hn, if_neg hn]
    cases reading.data with
    | nil => rfl
    | cons byte rest =>
        simp only [bind, Except.bind]
        cases checkedInt (n - 1) with
        | error fault => rfl
        | ok n =>
            simp only []
            cases loadCell Q.data Q.head with
            | error fault => rfl
            | ok byte =>
                simp only []
                cases checkedInt (Q.head + 1) with
                | error fault => rfl
                | ok next =>
                    simp only [pure, Except.pure]
                    cases Que.dequeLoop { Q with head := next.tmod queSize } rest n with
                    | error fault => rfl
                    | ok result =>
                        simp only [copyRest_append]

theorem meaning : (program model).Meaning remaining := by
  constructor
  intro Q pc
  cases pc with
  | write buf ubuffer size =>
    simp only [remaining_write, program, step, bind]
    cases copyFromUser buf.toList ubuffer (if size < 512 then size else 512).toNat with
    | error fault => rfl
    | ok result =>
      simp only [Except.bind]
      split <;> rfl
  | enque data size =>
    simp only [remaining_enque, program, step]
    split <;> rfl
  | enqueCompare data size =>
    simp only [remaining_enqueCompare, program, step]
    cases checkedInt (queSize - Q.num) <;> rfl
  | enqueChoose data =>
    simp only [program, step, remaining]
    cases checkedInt (queSize - Q.num) <;> rfl
  | enqueLoop data n size =>
    simp only [remaining_enqueLoop, program, step]
    split
    · rfl
    · cases data with
      | nil => rfl
      | cons byte rest => cases checkedInt (n - 1) <;> rfl
  | enqueTailLoad byte rest n size =>
    simp only [program, step, remaining]
    cases checkedInt (Q.tail + 1) <;> rfl
  | enqueTailStore byte rest n size tail => rfl
  | enqueIndex byte rest n size => rfl
  | enqueCell byte rest n size index =>
    simp only [program, step, remaining]
    cases storeCell Q.data index byte <;> rfl
  | enqueNumLoad size =>
    simp only [program, step, remaining]
    cases checkedInt (Q.num + size) <;> rfl
  | enqueNumStore size num => rfl
  | read buf size room =>
    simp only [remaining_read, program, step]
    split <;> rfl
  | readChoose buf room => rfl
  | dequeCompare reading size =>
    simp only [remaining_dequeCompare, program, step]
    rfl
  | dequeChoose reading => rfl
  | dequeLoop reading n size =>
    simp only [remaining_dequeLoop, program, step]
    split
    · rfl
    · cases reading.data with
      | nil => rfl
      | cons byte rest => cases checkedInt (n - 1) <;> rfl
  | dequeIndex reading rest n size => rfl
  | dequeCell reading rest n size index =>
    simp only [program, step, remaining]
    cases loadCell Q.data index <;> rfl
  | dequeHeadLoad reading n size =>
    simp only [program, step, remaining]
    cases checkedInt (Q.head + 1) <;> rfl
  | dequeHeadStore reading n size head => rfl
  | dequeNumLoad reading size =>
    simp only [program, step, remaining]
    cases checkedInt (Q.num - size) <;> rfl
  | dequeNumStore reading num => rfl
  | copy reading =>
    simp only [program, step, remaining, copyRest]
    cases reading.reply model <;> rfl
/-! ## Every call ends -/

/-- More than the number of accesses that are left. -/
def Pc.left : Pc model → Nat
  | .write _ _ _ => 5 * bufSize + 11
  | .enque data _ => 5 * data.length + 10
  | .enqueCompare data _ => 5 * data.length + 9
  | .enqueChoose data => 5 * data.length + 8
  | .enqueLoop data _ _ => 5 * data.length + 7
  | .enqueTailLoad _ rest _ _ => 5 * rest.length + 11
  | .enqueTailStore _ rest _ _ _ => 5 * rest.length + 10
  | .enqueIndex _ rest _ _ => 5 * rest.length + 9
  | .enqueCell _ rest _ _ _ => 5 * rest.length + 8
  | .enqueNumLoad _ => 2
  | .enqueNumStore _ _ => 1
  | .read _ _ _ => 5 * bufSize + 11
  | .readChoose _ _ => 5 * bufSize + 10
  | .dequeCompare reading _ => 5 * reading.data.length + 9
  | .dequeChoose reading => 5 * reading.data.length + 8
  | .dequeLoop reading _ _ => 5 * reading.data.length + 7
  | .dequeIndex _ rest _ _ => 5 * rest.length + 11
  | .dequeCell _ rest _ _ _ => 5 * rest.length + 10
  | .dequeHeadLoad reading _ _ => 5 * reading.data.length + 9
  | .dequeHeadStore reading _ _ _ => 5 * reading.data.length + 8
  | .dequeNumLoad _ _ => 3
  | .dequeNumStore _ _ => 2
  | .copy _ => 1

theorem copyFromUser_length {target ubuffer buf : List DataT} {n uncopied : Nat}
    (h : copyFromUser target ubuffer n = .ok (buf, uncopied)) : buf.length = target.length := by
  unfold copyFromUser at h
  split at h
  · cases h
  · cases h
    simp only [List.length_append, List.length_take, List.length_drop]
    omega

theorem step_decreases {Q Q' : QUE} {pc pc' : Pc model}
    (h : step Q pc = .ok (Q', .inl pc')) : pc'.left < pc.left := by
  have hbuf : bufSize = 512 := rfl
  cases pc
  case write buf ubuffer size =>
    obtain ⟨⟨data, uncopied⟩, hcopy, hrest⟩ := bind_eq_ok.mp h
    have hlength := (copyFromUser_length hcopy).trans (buf_length buf)
    simp only [] at hrest
    by_cases huncopied : uncopied ≠ 0
    · rw [if_pos huncopied] at hrest
      cases hrest
    · rw [if_neg huncopied] at hrest
      cases hrest
      simp only [Pc.left]
      omega
  case enqueCompare data size =>
    obtain ⟨free, -, hrest⟩ := bind_eq_ok.mp h
    cases hrest
    split <;> simp only [Pc.left] <;> omega
  case enqueLoop data n size =>
    simp only [step] at h
    split at h
    · cases h
      simp only [Pc.left]
      omega
    · cases data with
      | nil => cases h
      | cons byte rest =>
          obtain ⟨n, -, hrest⟩ := bind_eq_ok.mp h
          cases hrest
          simp only [Pc.left, List.length_cons]
          omega
  case read buf size room =>
    have hlength := buf_length buf
    simp only [step] at h
    split at h <;> cases h <;> simp only [startDeque, Pc.left] <;> omega
  case readChoose buf room =>
    have hlength := buf_length buf
    cases h
    simp only [startDeque, Pc.left]
    omega
  case dequeCompare reading size =>
    cases h
    split <;> simp only [Pc.left] <;> omega
  case dequeLoop reading n size =>
    simp only [step] at h
    split at h
    · cases h
      simp only [Pc.left]
      omega
    · cases hdata : reading.data with
      | nil =>
          rw [hdata] at h
          cases h
      | cons byte rest =>
          rw [hdata] at h
          obtain ⟨n, -, hrest⟩ := bind_eq_ok.mp h
          cases hrest
          simp only [Pc.left, hdata, List.length_cons]
          omega
  case enque data size =>
    simp only [step] at h
    split at h <;> cases h
    simp only [Pc.left]
    omega
  -- the other accesses go on to one program point
  all_goals first
    | (cases h; done)
    | (cases h; simp only [Pc.left]; omega)
    | (obtain ⟨value, -, hrest⟩ := bind_eq_ok.mp h; cases hrest; done)
    | (obtain ⟨value, -, hrest⟩ := bind_eq_ok.mp h; cases hrest; simp only [Pc.left]; omega)

end FarsightDriver.Fifo.Accesses
