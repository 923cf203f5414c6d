import FarsightDriver.RamDisk.Status

/-!
# The bytes of the array that a bio touches

The test of a bio is made on its end, in 64 bits and on whole sectors; a copy is
made at a 32-bit offset and for as many bytes as its segment has.  The two agree
except for a bio whose end, or whose size, wraps around, and for one whose last
sector is not whole and begins where the disk ends.
-/

namespace FarsightDriver.RamDisk

open FarsightDriver.Foundation

/-- What a `memcpy` is called with, for its place in the array. -/
structure Span where
  offset : ULong
  nbytes : ULong
  deriving DecidableEq

def Span.Touches (span : Span) (i : Nat) : Prop :=
  span.offset.toNat ≤ i ∧ i < span.offset.toNat + span.nbytes.toNat

def Span.Inside (span : Span) : Prop := ∀ i, span.Touches i → i < fsdskSize

/-- The copies of `bio_for_each_segment`, one for each segment. -/
def spans : SectorT → List BioVec → List Span
  | _, [] => []
  | sector, bvec :: rest =>
      ⟨(sector * BitVec.ofNat 64 fsdskSectorSize).setWidth 32, bvec.bvLen⟩ ::
        spans (sector + (bvec.bvLen >>> 9).setWidth 64) rest

def Bio.InBounds (bio : Bio) : Prop := ∀ span ∈ spans bio.biSector bio.segments, span.Inside

theorem Span.inside_iff {span : Span} :
    span.Inside ↔ span.nbytes.toNat = 0 ∨ span.offset.toNat + span.nbytes.toNat ≤ fsdskSize := by
  refine ⟨fun h => ?_, fun h i hi => ?_⟩
  · by_contra hout
    have hlast := h (span.offset.toNat + span.nbytes.toNat - 1) ⟨by omega, by omega⟩
    omega
  · obtain ⟨hfirst, hlast⟩ := hi
    omega

instance (span : Span) : Decidable span.Inside := decidable_of_iff _ Span.inside_iff.symm

instance (bio : Bio) : Decidable bio.InBounds :=
  inferInstanceAs (Decidable (∀ span ∈ _, Span.Inside span))

theorem inBounds_cons {sector : SectorT} {bvec : BioVec} {rest : List BioVec} :
    Bio.InBounds ⟨sector, bvec :: rest⟩ ↔
      (bvec.bvLen.toNat = 0 ∨ offsetOf sector + bvec.bvLen.toNat ≤ fsdskSize) ∧
        Bio.InBounds ⟨sector + (bvec.bvLen >>> 9).setWidth 64, rest⟩ := by
  rw [Bio.InBounds, spans, List.forall_mem_cons, Span.inside_iff]
  rfl

/-! ## The copies of the model -/

theorem copySegments_cons_ok (dir : Direction) {sector : SectorT} {bvec : BioVec}
    {rest : List BioVec} {ram ram' : Ram} (h : copySegment dir sector bvec ram = .ok ram') :
    copySegments dir sector (bvec :: rest) ram =
      copySegments dir (sector + (bvec.bvLen >>> 9).setWidth 64) rest ram' := by
  simp only [copySegments, h, bind, Except.bind]

theorem copySegments_cons_error (dir : Direction) {sector : SectorT} {bvec : BioVec}
    {rest : List BioVec} {ram : Ram} {fault : Fault}
    (h : copySegment dir sector bvec ram = .error fault) :
    copySegments dir sector (bvec :: rest) ram = .error fault := by
  simp only [copySegments, h, bind, Except.bind]

/-- The copies of a bio are made when all of them are in bounds, and are a fault otherwise. -/
theorem copySegments_ok_iff (dir : Direction) {sector : SectorT} {segments : List BioVec}
    (ram : Ram) (hpos : ∀ bvec ∈ segments, 0 < bvec.bvLen.toNat) :
    (∃ ram', copySegments dir sector segments ram = .ok ram') ↔
      Bio.InBounds ⟨sector, segments⟩ := by
  induction segments generalizing sector ram with
  | nil => exact ⟨fun _ _ hmem => absurd hmem List.not_mem_nil, fun _ => ⟨ram, rfl⟩⟩
  | cons bvec rest ih =>
      have hlen := hpos bvec List.mem_cons_self
      rw [inBounds_cons, or_iff_right (Nat.pos_iff_ne_zero.mp hlen)]
      by_cases hfault : fsdskSize < offsetOf sector + bvec.bvLen.toNat
      · rw [copySegments_cons_error dir (copySegment_error dir ram hfault)]
        refine ⟨fun ⟨_, h⟩ => ?_, fun h => absurd h.1 (Nat.not_le.mpr hfault)⟩
        cases h
      · obtain ⟨ram', hcopy⟩ := copySegment_ok dir ram hfault
        rw [copySegments_cons_ok dir hcopy,
          ih ram' fun other hmem => hpos other (List.mem_cons_of_mem _ hmem)]
        exact (and_iff_right (Nat.not_lt.mp hfault)).symm

theorem copySegment_frame {sector : SectorT} {bvec : BioVec} {ram ram' : Ram}
    (h : copySegment .write sector bvec ram = .ok ram') {i : Nat}
    (hi : ¬ (offsetOf sector ≤ i ∧ i < offsetOf sector + bvec.bvLen.toNat)) :
    ram'.data i = ram.data i := by
  by_cases hfault : fsdskSize < offsetOf sector + bvec.bvLen.toNat
  · rw [copySegment_error .write ram hfault] at h
    cases h
  · have hcopy := (if_neg hfault).symm.trans h
    cases hcopy
    exact if_neg hi

/-- A write changes no byte of the array but those that a span touches. -/
theorem copySegments_frame {sector : SectorT} {segments : List BioVec} {ram ram' : Ram}
    (h : copySegments .write sector segments ram = .ok ram') {i : Nat}
    (hi : ∀ span ∈ spans sector segments, ¬ span.Touches i) : ram'.data i = ram.data i := by
  induction segments generalizing sector ram with
  | nil =>
      cases h
      rfl
  | cons bvec rest ih =>
      rw [spans, List.forall_mem_cons] at hi
      cases hcopy : copySegment .write sector bvec ram with
      | error fault =>
          rw [copySegments_cons_error .write hcopy] at h
          cases h
      | ok next =>
          rw [copySegments_cons_ok .write hcopy] at h
          exact (ih h hi.2).trans (copySegment_frame hcopy hi.1)

/-! ## Where the bytes are -/

def fsdskOffsetSectors : Nat := 2 ^ 32 / fsdskSectorSize

/-- The sectors from the start of a bio to the end of the last one that it touches. -/
def reach : List BioVec → Nat
  | [] => 0
  | bvec :: rest =>
      max ((bvec.bvLen.toNat + (fsdskSectorSize - 1)) / fsdskSectorSize)
        (bvec.bvLen.toNat / fsdskSectorSize + reach rest)

/-- The offset of the bio leaves room for the sectors that it touches. -/
def Bio.HasRoom (bio : Bio) : Prop :=
  reach bio.segments = 0 ∨
    bio.biSector.toNat % fsdskOffsetSectors + reach bio.segments ≤ fsdskSectorTotal

instance (bio : Bio) : Decidable bio.HasRoom := inferInstanceAs (Decidable (_ = _ ∨ _ ≤ _))

theorem hasRoom_iff {sector : SectorT} {segments : List BioVec} :
    Bio.HasRoom ⟨sector, segments⟩ ↔
      reach segments = 0 ∨
        sector.toNat % fsdskOffsetSectors + reach segments ≤ fsdskSectorTotal := Iff.rfl

theorem offsetOf_sectors (sector : SectorT) :
    offsetOf sector = sector.toNat % fsdskOffsetSectors * fsdskSectorSize := by
  rw [offsetOf_eq, fsdskOffsetSectors, fsdskSectorSize]
  omega

theorem span_hasRoom_iff {start len : Nat} :
    (len = 0 ∨ start * fsdskSectorSize + len ≤ fsdskSize) ↔
      (len = 0 ∨ start + (len + (fsdskSectorSize - 1)) / fsdskSectorSize ≤ fsdskSectorTotal) := by
  rw [fsdskSize_eq, fsdskSectorSize, show fsdskSectorTotal = 16384 from rfl]
  omega

theorem hasRoom_cons {sector : SectorT} {bvec : BioVec} {rest : List BioVec} :
    Bio.HasRoom ⟨sector, bvec :: rest⟩ ↔
      (bvec.bvLen.toNat = 0 ∨ offsetOf sector + bvec.bvLen.toNat ≤ fsdskSize) ∧
        Bio.HasRoom ⟨sector + (bvec.bvLen >>> 9).setWidth 64, rest⟩ := by
  have hstart : (sector + (bvec.bvLen >>> 9).setWidth 64).toNat % fsdskOffsetSectors =
      (sector.toNat % fsdskOffsetSectors + bvec.bvLen.toNat / fsdskSectorSize) %
        fsdskOffsetSectors := by
    rw [BitVec.toNat_add, shiftRight_nine, fsdskOffsetSectors, fsdskSectorSize]
    omega
  rw [offsetOf_sectors, span_hasRoom_iff, hasRoom_iff, hasRoom_iff, hstart, reach]
  rw [fsdskOffsetSectors, fsdskSectorSize, show fsdskSectorTotal = 16384 from rfl]
  omega

theorem inBounds_iff_hasRoom {sector : SectorT} {segments : List BioVec} :
    Bio.InBounds ⟨sector, segments⟩ ↔ Bio.HasRoom ⟨sector, segments⟩ := by
  induction segments generalizing sector with
  | nil => exact ⟨fun _ => .inl rfl, fun _ _ hmem => absurd hmem List.not_mem_nil⟩
  | cons bvec rest ih => rw [inBounds_cons, hasRoom_cons, ih]

/-! ## The test of the bio -/

/-- Neither the size of the bio nor its end has wrapped around. -/
def Bio.EndsAsCounted (bio : Bio) : Prop :=
  (bioEndSector bio).toNat = bio.biSector.toNat + bytesOf bio.segments / fsdskSectorSize

instance (bio : Bio) : Decidable bio.EndsAsCounted := inferInstanceAs (Decidable (_ = _))

theorem accepted_iff {bio : Bio} : bio.Accepted ↔ (bioEndSector bio).toNat ≤ fsdskSectorTotal := by
  have hcap : getCapacity.toNat = fsdskSectorTotal := by decide
  rw [Bio.Accepted, BitVec.lt_def, hcap, Nat.not_lt]

theorem reach_le (segments : List BioVec) :
    reach segments ≤ (bytesOf segments + (fsdskSectorSize - 1)) / fsdskSectorSize := by
  induction segments with
  | nil => exact Nat.zero_le _
  | cons bvec rest ih =>
      rw [reach, bytesOf_cons]
      rw [fsdskSectorSize] at ih ⊢
      omega

theorem reach_whole {segments : List BioVec}
    (h : ∀ bvec ∈ segments, fsdskSectorSize ∣ bvec.bvLen.toNat) :
    reach segments = bytesOf segments / fsdskSectorSize := by
  induction segments with
  | nil => rfl
  | cons bvec rest ih =>
      have hfirst := h bvec List.mem_cons_self
      have hrest := ih fun other hmem => h other (List.mem_cons_of_mem _ hmem)
      rw [reach, bytesOf_cons, hrest]
      rw [fsdskSectorSize] at hfirst ⊢
      omega

/-- However it is cut, a bio of whole sectors in all stays in bounds when its end is counted. -/
theorem inBounds_of_counted {bio : Bio} (haccepted : bio.Accepted) (hend : bio.EndsAsCounted)
    (hwhole : fsdskSectorSize ∣ bytesOf bio.segments ∨
      (bioEndSector bio).toNat < fsdskSectorTotal) : bio.InBounds := by
  have hreach := reach_le bio.segments
  suffices hroom : bio.biSector.toNat % fsdskOffsetSectors + reach bio.segments ≤
      fsdskSectorTotal from inBounds_iff_hasRoom.mpr (.inr hroom)
  rw [accepted_iff] at haccepted
  rw [Bio.EndsAsCounted] at hend
  rw [fsdskOffsetSectors, fsdskSectorSize, show fsdskSectorTotal = 16384 from rfl] at *
  omega

theorem endsAsCounted_of_hasRoom {bio : Bio} (haccepted : bio.Accepted)
    (hwhole : ∀ bvec ∈ bio.segments, fsdskSectorSize ∣ bvec.bvLen.toNat) (h : bio.HasRoom) :
    bio.EndsAsCounted := by
  have hcounted : (bioEndSector bio).toNat =
      (bio.biSector.toNat + bytesOf bio.segments % 2 ^ 32 / fsdskSectorSize) % 2 ^ 64 := by
    rw [bioEndSector, BitVec.toNat_add, shiftRight_nine, biSize_toNat]
  have hlt := bio.biSector.isLt
  rw [accepted_iff] at haccepted
  rw [Bio.HasRoom, reach_whole hwhole] at h
  rw [Bio.EndsAsCounted]
  rw [fsdskOffsetSectors, fsdskSectorSize, show fsdskSectorTotal = 16384 from rfl] at *
  omega

/--
A bio that the test lets through stays in bounds when the offset leaves room for
it; for bios of whole sectors, exactly when neither its size nor its end wraps.
-/
theorem accepted_inBounds_iff (bio : Bio) (h : bio.Accepted) :
    (bio.InBounds ↔ bio.HasRoom) ∧
    ((∀ bvec ∈ bio.segments, fsdskSectorSize ∣ bvec.bvLen.toNat) →
      (bio.InBounds ↔ bio.EndsAsCounted)) := by
  refine ⟨inBounds_iff_hasRoom, fun hwhole => ⟨fun hbounds => ?_, fun hend => ?_⟩⟩
  · exact endsAsCounted_of_hasRoom h hwhole (inBounds_iff_hasRoom.mp hbounds)
  · exact inBounds_of_counted h hend (.inl (bytesOf_whole hwhole))

/-- The end of the first bio wraps around; the second ends within the sector behind the disk. -/
def wrappedEnd : Bio := ⟨BitVec.allOnes 64, [⟨0, 512, 0⟩]⟩

def partialEnd : Bio := ⟨16383, [⟨0, 1023, 0⟩]⟩

theorem wrapped_end_out_of_bounds :
    (wrappedEnd.Accepted ∧ spans wrappedEnd.biSector wrappedEnd.segments = [⟨4294966784, 512⟩]) ∧
    (partialEnd.Accepted ∧ spans partialEnd.biSector partialEnd.segments = [⟨8388096, 1023⟩]) ∧
    ¬ ∀ bio : Bio, bio.Accepted → bio.InBounds := by
  refine ⟨by decide, by decide, fun h => ?_⟩
  exact absurd (h wrappedEnd (by decide)) (by decide)

/-- Two segments that share a sector at the start of the disk. -/
theorem shared_sector_inBounds :
    (⟨0, [⟨0, 100, 0⟩, ⟨0, 412, 100⟩]⟩ : Bio).Accepted ∧
      (⟨0, [⟨0, 100, 0⟩, ⟨0, 412, 100⟩]⟩ : Bio).InBounds :=
  ⟨by decide, (accepted_inBounds_iff _ (by decide)).1.mpr (by decide)⟩

end FarsightDriver.RamDisk
