import FarsightDriver.Foundation.Checked
import Mathlib.Data.BitVec

/-!
# The RAM disk

`fsdsk_request` serves block requests from a byte array.  On every pass of its
outer loop it copies all bios that the current request still has, and then
completes one segment of it.  `sector_t` has 64 bits and `unsigned long` 32, and
a copy that leaves the array is a fault.

The block layer is not part of the driver.  Its completion call is a parameter;
what it does to a request is written down in `afterCurrent`.
-/

namespace FarsightDriver.RamDisk

open FarsightDriver.Foundation

def fsdskHeads : Nat := 4

def fsdskSectors : Nat := 16

def fsdskCylinders : Nat := 256

def fsdskSectorSize : Nat := 512

def fsdskSectorTotal : Nat := fsdskHeads * fsdskSectors * fsdskCylinders

def fsdskSize : Nat := fsdskSectorTotal * fsdskSectorSize

def eio : Int := 5

abbrev SectorT := BitVec 64

abbrev ULong := BitVec 32

inductive Direction where
  | read
  | write
  deriving DecidableEq, Repr

structure BioVec where
  bvPage : Nat
  bvLen : BitVec 32
  bvOffset : BitVec 32
  deriving DecidableEq

/-- A bio is what its iterator has left: the current sector and the segments to come. -/
structure Bio where
  biSector : SectorT
  segments : List BioVec
  deriving DecidableEq

/-- The bios of one request have one direction. -/
structure Request where
  dir : Direction
  bios : List Bio
  deriving DecidableEq

def Bio.biSize (bio : Bio) : BitVec 32 := (bio.segments.map BioVec.bvLen).sum

def bioEndSector (bio : Bio) : SectorT :=
  bio.biSector + (bio.biSize >>> 9).setWidth 64

/-- `set_capacity` in `fsdsk_init`. -/
def getCapacity : SectorT := BitVec.ofNat 64 fsdskSectorTotal

abbrev Cells := Nat → UInt8

def pageSize : Nat := 4096

def kmapAtomic (page : Nat) : Nat := page * pageSize

def BioVec.buffer (bvec : BioVec) : Nat := kmapAtomic bvec.bvPage + bvec.bvOffset.toNat

def memcpy (target : Cells) (start : Nat) (source : Cells) (origin n : Nat) : Cells :=
  fun i => if start ≤ i ∧ i < start + n then source (origin + (i - start)) else target i

def bytesAt (cells : Cells) (start n : Nat) : List UInt8 :=
  (List.range n).map fun i => cells (start + i)

/-- The array of the device, of `fsdskSize` bytes, and the memory of the buffers. -/
structure Ram where
  data : Cells
  memory : Cells

/-- The body of `bio_for_each_segment`. -/
def copySegment (dir : Direction) (sector : SectorT) (bvec : BioVec) (ram : Ram) :
    Checked Ram :=
  let buffer := kmapAtomic bvec.bvPage
  let offset : ULong := (sector * BitVec.ofNat 64 fsdskSectorSize).setWidth 32
  let nbytes : ULong := bvec.bvLen
  if fsdskSize < offset.toNat + nbytes.toNat then .error .outOfBounds
  else
    match dir with
    | .write => .ok { ram with
        data := memcpy ram.data offset.toNat ram.memory (buffer + bvec.bvOffset.toNat)
          nbytes.toNat }
    | .read => .ok { ram with
        memory := memcpy ram.memory (buffer + bvec.bvOffset.toNat) ram.data offset.toNat
          nbytes.toNat }

def copySegments (dir : Direction) : SectorT → List BioVec → Ram → Checked Ram
  | _, [], ram => .ok ram
  | sector, bvec :: rest, ram => do
      let ram ← copySegment dir sector bvec ram
      copySegments dir (sector + (bvec.bvLen >>> 9).setWidth 64) rest ram

/-- `__rq_for_each_bio`; it returns the value of `status` as well. -/
def forEachBio (dir : Direction) : List Bio → Int → Ram → Checked (Int × Ram)
  | [], status, ram => .ok (status, ram)
  | bio :: rest, _, ram =>
      if getCapacity < bioEndSector bio then .ok (-eio, ram)
      else do
        let ram ← copySegments dir bio.biSector bio.segments ram
        forEachBio dir rest 0 ram

/-! ## The block layer -/

def Request.current (req : Request) : Option (SectorT × BioVec) :=
  match req.bios with
  | ⟨sector, bvec :: _⟩ :: _ => some (sector, bvec)
  | _ => none

/-- What is left of a request when its current segment is completed. -/
def Request.afterCurrent (req : Request) : Request :=
  match req.bios with
  | [] => req
  | ⟨sector, bvec :: next :: rest⟩ :: bios =>
      { req with bios := ⟨sector + (bvec.bvLen >>> 9).setWidth 64, next :: rest⟩ :: bios }
  | _ :: bios => { req with bios := bios }

/--
`__blk_end_request_cur` returns whether anything is left of the request and, if
so, leaves it without its current segment.
-/
structure BlockLayer where
  blkEndRequestCur : Request → Int → Bool × Request
  more_iff : ∀ req status,
    (blkEndRequestCur req status).1 = true ↔ req.afterCurrent.bios ≠ []
  advances : ∀ req status, (blkEndRequestCur req status).1 = true →
    (blkEndRequestCur req status).2 = req.afterCurrent

def blkFetchRequest : List Request → Option Request × List Request
  | [] => (none, [])
  | req :: queue => (some req, queue)

structure Completion where
  dir : Direction
  position : Nat
  bvec : BioVec
  status : Int
  bytes : List UInt8
  deriving DecidableEq

def Request.completion (req : Request) (status : Int) (memory : Cells) : List Completion :=
  match req.current with
  | none => []
  | some (sector, bvec) =>
      [⟨req.dir, sector.toNat * fsdskSectorSize, bvec, status,
        bytesAt memory bvec.buffer bvec.bvLen.toNat⟩]

/-! ## The request function -/

/-- The variables of `fsdsk_request` besides `req`, and the completions so far. -/
structure Run where
  ram : Ram
  queue : List Request
  status : Int
  log : List Completion

/-- The loop `while (req != NULL)`; it yields `none` when the fuel is spent. -/
def requestLoop (layer : BlockLayer) : Nat → Option Request → Run → Option (Checked Run)
  | _, none, run => some (.ok run)
  | 0, some _, _ => none
  | fuel + 1, some req, run =>
      match forEachBio req.dir req.bios run.status run.ram with
      | .error fault => some (.error fault)
      | .ok (status, ram) =>
          let log := run.log ++ req.completion status ram.memory
          let (more, rest) := layer.blkEndRequestCur req status
          if more then requestLoop layer fuel (some rest) ⟨ram, run.queue, status, log⟩
          else
            let (next, queue) := blkFetchRequest run.queue
            requestLoop layer fuel next ⟨ram, queue, status, log⟩

def fsdskRequest (layer : BlockLayer) (fuel : Nat) (queue : List Request) (ram : Ram) :
    Option (Checked Run) :=
  let (req, queue) := blkFetchRequest queue
  requestLoop layer fuel req ⟨ram, queue, 0, []⟩

end FarsightDriver.RamDisk
