import FarsightDriver.Foundation.Patch
import FarsightDriver.RamDisk.Basic
import Mathlib.Data.List.TakeWhile

/-!
# One pass over a request

A segment is a patch: of the disk, with the bytes of its buffer, when it is
written, and of its buffer, with the bytes of the disk, when it is read.  A pass
applies the patches of the bios in front of the first one that is refused; its
status says whether there is such a bio.
-/

namespace FarsightDriver.RamDisk

open FarsightDriver.Foundation

/-- A segment and its byte position on the disk. -/
structure Piece where
  position : Nat
  bvec : BioVec

def bytesOf (segments : List BioVec) : Nat := (segments.map fun bvec => bvec.bvLen.toNat).sum

/-- The whole of the bio is on the disk. -/
def Bio.Inside (bio : Bio) : Prop :=
  bio.biSector.toNat * fsdskSectorSize + bytesOf bio.segments ≤ fsdskSize

instance (bio : Bio) : Decidable bio.Inside := inferInstanceAs (Decidable (_ ≤ _))

/-- From each segment to the next, the position moves by whole sectors only. -/
def sectorLayout : Nat → List BioVec → List Piece
  | _, [] => []
  | sector, bvec :: rest =>
      ⟨sector * fsdskSectorSize, bvec⟩ ::
        sectorLayout (sector + bvec.bvLen.toNat / fsdskSectorSize) rest

def Bio.copies (bio : Bio) : List Piece := sectorLayout bio.biSector.toNat bio.segments

/-! ## Copies as patches -/

def copyPatch (start : Nat) (source : Cells) (origin n : Nat) : Patch Nat UInt8 :=
  fun i => if start ≤ i ∧ i < start + n then some (source (origin + (i - start))) else none

theorem memcpy_eq_apply (target : Cells) (start : Nat) (source : Cells) (origin n : Nat) :
    memcpy target start source origin n = (copyPatch start source origin n).apply target := by
  funext i
  by_cases hi : start ≤ i ∧ i < start + n <;> simp [memcpy, copyPatch, Patch.apply, hi]

def Piece.stored (memory : Cells) (piece : Piece) : Patch Nat UInt8 :=
  copyPatch piece.position memory piece.bvec.buffer piece.bvec.bvLen.toNat

def Piece.loaded (data : Cells) (piece : Piece) : Patch Nat UInt8 :=
  copyPatch piece.bvec.buffer data piece.position piece.bvec.bvLen.toNat

def Ram.transfer (dir : Direction) (pieces : List Piece) (ram : Ram) : Ram :=
  match dir with
  | .write =>
      { ram with data := Patch.applyAll (pieces.map (Piece.stored ram.memory)) ram.data }
  | .read =>
      { ram with memory := Patch.applyAll (pieces.map (Piece.loaded ram.data)) ram.memory }

@[simp] theorem transfer_nil (dir : Direction) (ram : Ram) : ram.transfer dir [] = ram := by
  cases dir <;> rfl

theorem transfer_append (dir : Direction) (front back : List Piece) (ram : Ram) :
    ram.transfer dir (front ++ back) = (ram.transfer dir front).transfer dir back := by
  cases dir <;> simp [Ram.transfer, Patch.applyAll_append]

theorem transfer_suffix (dir : Direction) (front back : List Piece) (ram : Ram) :
    (ram.transfer dir (front ++ back)).transfer dir back = ram.transfer dir (front ++ back) := by
  cases dir <;> simp [Ram.transfer, Patch.applyAll_suffix]

/-! ## Sector arithmetic -/

theorem fsdskSize_eq : fsdskSize = 8388608 := by decide

theorem shiftRight_nine (len : BitVec 32) :
    ((len >>> 9).setWidth 64).toNat = len.toNat / fsdskSectorSize := by
  have hlt := len.isLt
  simp only [BitVec.toNat_setWidth, BitVec.toNat_ushiftRight, Nat.shiftRight_eq_div_pow,
    fsdskSectorSize]
  omega

theorem biSize_toNat (bio : Bio) : bio.biSize.toNat = bytesOf bio.segments % 2 ^ 32 := by
  unfold Bio.biSize bytesOf
  induction bio.segments with
  | nil => rfl
  | cons bvec rest ih =>
      simp only [List.map_cons, List.sum_cons, BitVec.toNat_add, ih]
      omega

@[simp] theorem bytesOf_cons (bvec : BioVec) (rest : List BioVec) :
    bytesOf (bvec :: rest) = bvec.bvLen.toNat + bytesOf rest := rfl

theorem inside_iff {sector : SectorT} {segments : List BioVec} :
    Bio.Inside ⟨sector, segments⟩ ↔
      sector.toNat * fsdskSectorSize + bytesOf segments ≤ fsdskSize := Iff.rfl

theorem not_capacity_lt {bio : Bio} (h : bio.Inside) : ¬ getCapacity < bioEndSector bio := by
  have hsize := biSize_toNat bio
  rw [Bio.Inside, fsdskSize_eq, fsdskSectorSize] at h
  have hend : (bioEndSector bio).toNat =
      bio.biSector.toNat + bytesOf bio.segments / fsdskSectorSize := by
    rw [bioEndSector, BitVec.toNat_add, shiftRight_nine, hsize, fsdskSectorSize]
    omega
  have hcap : getCapacity.toNat = 16384 := by decide
  rw [BitVec.lt_def, hend, hcap, fsdskSectorSize]
  omega

theorem copySegment_eq {dir : Direction} {sector : SectorT} {bvec : BioVec} (ram : Ram)
    (hinside : sector.toNat * fsdskSectorSize + bvec.bvLen.toNat ≤ fsdskSize) :
    copySegment dir sector bvec ram =
      .ok (ram.transfer dir [⟨sector.toNat * fsdskSectorSize, bvec⟩]) := by
  have hoffset : ((sector * BitVec.ofNat 64 fsdskSectorSize).setWidth 32).toNat =
      sector.toNat * fsdskSectorSize := by
    rw [fsdskSize_eq] at hinside
    simp only [BitVec.toNat_setWidth, BitVec.toNat_mul, BitVec.toNat_ofNat, fsdskSectorSize]
      at hinside ⊢
    omega
  simp only [copySegment, hoffset, if_neg (Nat.not_lt.mpr hinside), memcpy_eq_apply]
  cases dir <;> rfl

theorem advance_toNat {sector : SectorT} {bvec : BioVec} {rest : List BioVec}
    (h : Bio.Inside ⟨sector, bvec :: rest⟩) :
    (sector + (bvec.bvLen >>> 9).setWidth 64).toNat =
      sector.toNat + bvec.bvLen.toNat / fsdskSectorSize := by
  rw [inside_iff, bytesOf_cons, fsdskSize_eq, fsdskSectorSize] at h
  rw [BitVec.toNat_add, shiftRight_nine, fsdskSectorSize]
  omega

theorem Bio.Inside.advance {sector : SectorT} {bvec : BioVec} {rest : List BioVec}
    (h : Bio.Inside ⟨sector, bvec :: rest⟩) :
    Bio.Inside ⟨sector + (bvec.bvLen >>> 9).setWidth 64, rest⟩ := by
  have hnext := advance_toNat h
  have hdiv := Nat.div_mul_le_self bvec.bvLen.toNat fsdskSectorSize
  rw [inside_iff, bytesOf_cons] at h
  rw [inside_iff, hnext, Nat.add_mul]
  omega

theorem copies_advance {sector : SectorT} {bvec : BioVec} {rest : List BioVec}
    (h : Bio.Inside ⟨sector, bvec :: rest⟩) :
    Bio.copies ⟨sector, bvec :: rest⟩ =
      ⟨sector.toNat * fsdskSectorSize, bvec⟩ ::
        Bio.copies ⟨sector + (bvec.bvLen >>> 9).setWidth 64, rest⟩ := by
  rw [Bio.copies, Bio.copies, sectorLayout, advance_toNat h]

theorem copySegments_eq (dir : Direction) {sector : SectorT} {segments : List BioVec} (ram : Ram)
    (h : Bio.Inside ⟨sector, segments⟩) :
    copySegments dir sector segments ram =
      .ok (ram.transfer dir (Bio.copies ⟨sector, segments⟩)) := by
  induction segments generalizing sector ram with
  | nil => cases dir <;> rfl
  | cons bvec rest ih =>
      have hcopy : copySegment dir sector bvec ram =
          .ok (ram.transfer dir [⟨sector.toNat * fsdskSectorSize, bvec⟩]) := by
        rw [inside_iff, bytesOf_cons] at h
        exact copySegment_eq ram (by omega)
      simp only [copySegments, hcopy, bind, Except.bind]
      rw [ih _ h.advance, ← transfer_append, copies_advance h]
      rfl

/-! ## The bios that a pass visits -/

/-- `fsdsk_request` goes on with the bio. -/
def Bio.Accepted (bio : Bio) : Prop := ¬ getCapacity < bioEndSector bio

instance (bio : Bio) : Decidable bio.Accepted := inferInstanceAs (Decidable (¬ _))

theorem Bio.Inside.accepted {bio : Bio} (h : bio.Inside) : bio.Accepted := not_capacity_lt h

def visited (bios : List Bio) : List Bio := bios.takeWhile fun bio => bio.Accepted

def passStatus (bios : List Bio) : Int := if ∀ bio ∈ bios, bio.Accepted then 0 else -eio

theorem passStatus_cons {bio : Bio} (h : bio.Accepted) (rest : List Bio) :
    passStatus (bio :: rest) = passStatus rest := by
  simp only [passStatus, List.forall_mem_cons, h, true_and]

theorem forEachBio_eq (dir : Direction) {bios : List Bio} (ram : Ram)
    (h : ∀ bio ∈ visited bios, bio.Inside) :
    forEachBio dir bios 0 ram =
      .ok (passStatus bios, ram.transfer dir ((visited bios).flatMap Bio.copies)) := by
  induction bios generalizing ram with
  | nil => simp [forEachBio, passStatus, visited]
  | cons bio rest ih =>
      by_cases hbio : bio.Accepted
      · have hvisited : visited (bio :: rest) = bio :: visited rest := by
          simp [visited, hbio]
        rw [hvisited] at h ⊢
        have hinside := h bio List.mem_cons_self
        simp only [forEachBio, if_neg hbio, copySegments_eq dir ram hinside, bind, Except.bind]
        rw [ih _ fun other hmem => h other (List.mem_cons_of_mem _ hmem), ← transfer_append,
          passStatus_cons hbio]
        rfl
      · have hvisited : visited (bio :: rest) = [] := by
          simp [visited, hbio]
        have hstatus : passStatus (bio :: rest) = -eio :=
          if_neg fun hall => hbio (hall bio List.mem_cons_self)
        rw [hvisited, hstatus]
        simp only [forEachBio, if_pos (not_not.mp hbio), List.flatMap_nil, transfer_nil]

theorem forEachBio_inside (dir : Direction) {bios : List Bio} (ram : Ram)
    (h : ∀ bio ∈ bios, bio.Inside) :
    forEachBio dir bios 0 ram = .ok (0, ram.transfer dir (bios.flatMap Bio.copies)) := by
  have hvisited : visited bios = bios :=
    List.takeWhile_eq_self_iff.mpr fun bio hmem => decide_eq_true (h bio hmem).accepted
  have hstatus : passStatus bios = 0 := if_pos fun bio hmem => (h bio hmem).accepted
  have hpass := forEachBio_eq dir ram fun bio hmem => h bio (hvisited ▸ hmem)
  rwa [hvisited, hstatus] at hpass

/-- The status left by an earlier pass does not matter when there is a bio to visit. -/
theorem forEachBio_status (dir : Direction) {bios : List Bio} (hne : bios ≠ []) (status : Int)
    (ram : Ram) : forEachBio dir bios status ram = forEachBio dir bios 0 ram := by
  cases bios with
  | nil => contradiction
  | cons bio rest => rfl

/-! ## Passes of the request loop -/

theorem afterCurrent_dir (req : Request) : req.afterCurrent.dir = req.dir := by
  unfold Request.afterCurrent
  split <;> rfl

/-- The passes that a request can take, and one more for each bio. -/
def Request.work (req : Request) : Nat :=
  (req.bios.map fun bio => bio.segments.length + 1).sum

theorem work_afterCurrent {req : Request} (h : req.afterCurrent.bios ≠ []) :
    req.afterCurrent.work < req.work := by
  unfold Request.afterCurrent at h ⊢
  split at h
  case h_1 hnil => exact absurd hnil h
  case h_2 hbios => simp [Request.work, hbios]
  case h_3 bio bios _ hbios => simp [Request.work, hbios]

theorem Request.pass_induction {motive : Request → Prop}
    (pass : ∀ req, (req.afterCurrent.bios ≠ [] → motive req.afterCurrent) → motive req)
    (req : Request) : motive req := by
  induction hwork : req.work using Nat.strong_induction_on generalizing req with
  | _ work ih => exact pass req fun hmore => ih _ (hwork ▸ work_afterCurrent hmore) _ rfl

def Run.fetched (run : Run) : Run :=
  { run with queue := (blkFetchRequest run.queue).2 }

/-- The run after a pass that has left `ram` and found `status`. -/
def Run.after (run : Run) (req : Request) (status : Int) (ram : Ram) : Run :=
  { run with ram := ram, status := status, log := run.log ++ req.completion status ram.memory }

theorem requestLoop_ok (layer : BlockLayer) {req : Request} {run : Run} {status : Int} {ram : Ram}
    (hpass : forEachBio req.dir req.bios run.status run.ram = .ok (status, ram)) (fuel : Nat) :
    requestLoop layer (fuel + 1) (some req) run =
      if req.afterCurrent.bios = [] then
        requestLoop layer fuel (blkFetchRequest run.queue).1 (run.after req status ram).fetched
      else requestLoop layer fuel (some req.afterCurrent) (run.after req status ram) := by
  have hmore := layer.more_iff req status
  simp only [requestLoop, hpass]
  by_cases hdone : req.afterCurrent.bios = []
  · rw [if_pos hdone, if_neg (fun htrue => hmore.mp htrue hdone)]
    rfl
  · rw [if_neg hdone, if_pos (hmore.mpr hdone), layer.advances req status (hmore.mpr hdone)]
    rfl

theorem requestLoop_error (layer : BlockLayer) {req : Request} {run : Run} {fault : Fault}
    (hpass : forEachBio req.dir req.bios run.status run.ram = .error fault) (fuel : Nat) :
    requestLoop layer (fuel + 1) (some req) run = some (.error fault) := by
  simp only [requestLoop, hpass]

/-- The run after a pass that has moved `pieces` and found `status`. -/
def Run.passed (run : Run) (req : Request) (pieces : List Piece) (status : Int) : Run :=
  let ram := run.ram.transfer req.dir pieces
  { run with ram := ram, status := status, log := run.log ++ req.completion status ram.memory }

theorem requestLoop_passed (layer : BlockLayer) {req : Request} {run : Run} {pieces : List Piece}
    {status : Int}
    (hpass : forEachBio req.dir req.bios run.status run.ram =
      .ok (status, run.ram.transfer req.dir pieces)) (fuel : Nat) :
    requestLoop layer (fuel + 1) (some req) run =
      if req.afterCurrent.bios = [] then
        requestLoop layer fuel (blkFetchRequest run.queue).1
          (run.passed req pieces status).fetched
      else requestLoop layer fuel (some req.afterCurrent) (run.passed req pieces status) :=
  requestLoop_ok layer hpass fuel

/-! ## Runs of the loop -/

/-- From one point of the loop to another, in some number of passes. -/
def Goes (layer : BlockLayer) (req : Option Request) (run : Run) (req' : Option Request)
    (run' : Run) : Prop :=
  ∃ passes, ∀ fuel, requestLoop layer (passes + fuel) req run = requestLoop layer fuel req' run'

def Faults (layer : BlockLayer) (req : Option Request) (run : Run) : Prop :=
  ∃ passes fault, ∀ fuel, requestLoop layer (passes + fuel) req run = some (.error fault)

section Goes

variable {layer : BlockLayer} {req req' req'' : Option Request} {run run' run'' : Run}

theorem Goes.refl : Goes layer req run req run :=
  ⟨0, fun fuel => by rw [Nat.zero_add]⟩

theorem Goes.step
    (h : ∀ fuel, requestLoop layer (fuel + 1) req run = requestLoop layer fuel req' run') :
    Goes layer req run req' run' :=
  ⟨1, fun fuel => by rw [Nat.add_comm, h]⟩

theorem Goes.trans (h : Goes layer req run req' run') (h' : Goes layer req' run' req'' run'') :
    Goes layer req run req'' run'' := by
  obtain ⟨passes, hfirst⟩ := h
  obtain ⟨passes', hsecond⟩ := h'
  exact ⟨passes + passes', fun fuel => by rw [Nat.add_assoc, hfirst, hsecond]⟩

theorem Goes.ends (h : Goes layer req run none run') :
    ∃ passes, ∀ fuel, requestLoop layer (passes + fuel) req run = some (.ok run') := by
  obtain ⟨passes, hloop⟩ := h
  refine ⟨passes, fun fuel => ?_⟩
  rw [hloop, requestLoop]

theorem Faults.step {fault : Fault}
    (h : ∀ fuel, requestLoop layer (fuel + 1) req run = some (.error fault)) :
    Faults layer req run :=
  ⟨1, fault, fun fuel => by rw [Nat.add_comm, h]⟩

theorem Goes.faults (h : Goes layer req run req' run') (h' : Faults layer req' run') :
    Faults layer req run := by
  obtain ⟨passes, hfirst⟩ := h
  obtain ⟨passes', fault, hsecond⟩ := h'
  exact ⟨passes + passes', fault, fun fuel => by rw [Nat.add_assoc, hfirst, hsecond]⟩

end Goes

end FarsightDriver.RamDisk
