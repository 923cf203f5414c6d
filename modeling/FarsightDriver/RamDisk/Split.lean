import FarsightDriver.RamDisk.Separated

/-!
# Cutting a write into segments

The position on the disk moves by whole sectors from one segment to the next.
So the bytes of a bio come to lie one after the other when every segment is made
of whole sectors, as `fsdsk_init` asks of the layer above, and otherwise not.
-/

namespace FarsightDriver.RamDisk

open FarsightDriver.Foundation

/-- The bytes of the bio, in the order of its segments. -/
def Bio.content (memory : Cells) (bio : Bio) : List UInt8 :=
  bio.segments.flatMap fun bvec => bytesAt memory bvec.buffer bvec.bvLen.toNat

def laidOut (disk : Cells) (start : Nat) (bytes : List UInt8) : Cells :=
  fun i => if start ≤ i then bytes[i - start]?.getD (disk i) else disk i

def Bio.Whole (bio : Bio) : Prop := ∀ bvec ∈ bio.segments, fsdskSectorSize ∣ bvec.bvLen.toNat

instance (bio : Bio) : Decidable bio.Whole := inferInstanceAs (Decidable (∀ _ ∈ _, _))

/-- A write of the bio alone leaves its bytes in one piece at its start sector. -/
def WritesContiguously (layer : BlockLayer) (bio : Bio) : Prop :=
  ∀ ram : Ram, ∃ passes final,
    (∀ fuel, fsdskRequest layer (passes + fuel) [⟨.write, [bio]⟩] ram = some (.ok final)) ∧
    final.ram.data =
      laidOut ram.data (bio.biSector.toNat * fsdskSectorSize) (bio.content ram.memory)

/-! ## Bytes in one piece -/

theorem laidOut_nil (disk : Cells) (start : Nat) : laidOut disk start [] = disk := by
  funext i
  simp [laidOut]

theorem laidOut_append (disk : Cells) (start : Nat) (front back : List UInt8) :
    laidOut disk start (front ++ back) =
      laidOut (laidOut disk start front) (start + front.length) back := by
  funext i
  unfold laidOut
  by_cases hlow : start ≤ i
  · by_cases hhigh : start + front.length ≤ i
    · have hindex : i - start - front.length = i - (start + front.length) := by omega
      rw [if_pos hlow, if_pos hhigh, if_pos hlow, List.getElem?_append_right (by omega), hindex,
        List.getElem?_eq_none (show front.length ≤ i - start by omega), Option.getD_none]
    · rw [if_pos hlow, if_neg hhigh, if_pos hlow, List.getElem?_append_left (by omega)]
  · rw [if_neg hlow, if_neg (by omega), if_neg hlow]

theorem stored_apply (memory disk : Cells) (piece : Piece) :
    (piece.stored memory).apply disk =
      laidOut disk piece.position
        (bytesAt memory piece.bvec.buffer piece.bvec.bvLen.toNat) := by
  funext i
  unfold Piece.stored copyPatch laidOut Patch.apply
  by_cases hlow : piece.position ≤ i
  · by_cases hhigh : i < piece.position + piece.bvec.bvLen.toNat
    · have hindex : i - piece.position < piece.bvec.bvLen.toNat := by omega
      simp [hlow, hhigh, bytesAt, List.getElem?_range hindex]
    · have hindex : piece.bvec.bvLen.toNat ≤ i - piece.position := by omega
      simp [hlow, hhigh, bytesAt, hindex]
  · simp [hlow]

theorem layout_stored (memory disk : Cells) (position : Nat) (segments : List BioVec) :
    Patch.applyAll ((layout position segments).map (Piece.stored memory)) disk =
      laidOut disk position
        (segments.flatMap fun bvec => bytesAt memory bvec.buffer bvec.bvLen.toNat) := by
  induction segments generalizing position disk with
  | nil => exact (laidOut_nil disk position).symm
  | cons bvec rest ih =>
      rw [layout, List.map_cons, Patch.applyAll_cons, ih, stored_apply, List.flatMap_cons,
        laidOut_append, bytesAt_length]

/-! ## The write of one bio -/

theorem write_run (layer : BlockLayer) {bio : Bio} (h : bio.Inside) (ram : Ram) :
    ∃ passes final,
      (∀ fuel, fsdskRequest layer (passes + fuel) [⟨.write, [bio]⟩] ram = some (.ok final)) ∧
      final.ram.data = Patch.applyAll (bio.copies.map (Piece.stored ram.memory)) ram.data := by
  have hseparated : ∀ req ∈ [(⟨.write, [bio]⟩ : Request)], Separated req.bios := by
    intro req hmem
    rw [List.mem_singleton.mp hmem]
    refine ⟨List.pairwise_singleton _ _, fun other hother hout => ?_⟩
    exact absurd (List.mem_singleton.mp hother ▸ h) hout
  obtain ⟨passes, final, hrun, -, hram⟩ := ownStatuses_of_separated layer hseparated ram
  have hcopies : Request.insideCopies ⟨.write, [bio]⟩ = bio.copies := by
    rw [insideCopies_inside h, Request.insideCopies]
    simp
  refine ⟨passes, final, hrun, ?_⟩
  rw [hram, List.foldl_cons, List.foldl_nil, Ram.serveInside, hcopies]
  rfl

theorem writesContiguously_of_whole (layer : BlockLayer) {bio : Bio} (h : bio.Inside)
    (hwhole : bio.Whole) : WritesContiguously layer bio := by
  intro ram
  obtain ⟨passes, final, hrun, hdata⟩ := write_run layer h ram
  refine ⟨passes, final, hrun, ?_⟩
  rw [hdata, Bio.copies, sectorLayout_eq_layout _ hwhole, layout_stored]
  rfl

theorem content_length (memory : Cells) (bio : Bio) :
    (bio.content memory).length = bytesOf bio.segments := by
  simp only [Bio.content, List.length_flatMap, bytesAt_length]
  rfl

theorem splits_agree (layer : BlockLayer) {bio bio' : Bio} {ram ram' : Ram}
    (hsector : bio.biSector = bio'.biSector) (hdata : ram.data = ram'.data)
    (hbytes : bio.content ram.memory = bio'.content ram'.memory)
    (hinside : bio.Inside) (hwhole : bio.Whole) (hwhole' : bio'.Whole) :
    ∃ passes final passes' final',
      (∀ fuel, fsdskRequest layer (passes + fuel) [⟨.write, [bio]⟩] ram = some (.ok final)) ∧
      (∀ fuel, fsdskRequest layer (passes' + fuel) [⟨.write, [bio']⟩] ram' =
        some (.ok final')) ∧
      final.ram.data = final'.ram.data ∧
      final.ram.data =
        laidOut ram.data (bio.biSector.toNat * fsdskSectorSize) (bio.content ram.memory) := by
  have hlength : bytesOf bio.segments = bytesOf bio'.segments := by
    rw [← content_length ram.memory, hbytes, content_length]
  have hinside' : bio'.Inside := by
    rw [Bio.Inside, hsector, hlength] at hinside
    exact hinside
  obtain ⟨passes, final, hrun, hfinal⟩ := writesContiguously_of_whole layer hinside hwhole ram
  obtain ⟨passes', final', hrun', hfinal'⟩ :=
    writesContiguously_of_whole layer hinside' hwhole' ram'
  refine ⟨passes, final, passes', final', hrun, hrun', ?_, hfinal⟩
  rw [hfinal, hfinal', hsector, hdata, hbytes]

/-! ## Segments that are not whole sectors -/

theorem sectorLayout_end_le (sector : Nat) (segments : List BioVec) :
    ∀ piece ∈ sectorLayout sector segments,
      piece.position + piece.bvec.bvLen.toNat ≤
        sector * fsdskSectorSize + bytesOf segments := by
  induction segments generalizing sector with
  | nil => simp [sectorLayout]
  | cons bvec rest ih =>
      have hdiv := Nat.div_mul_le_self bvec.bvLen.toNat fsdskSectorSize
      rw [sectorLayout, bytesOf_cons]
      refine List.forall_mem_cons.mpr ⟨?_, fun piece hmem => ?_⟩
      · simp only
        omega
      · have hpiece := ih _ piece hmem
        rw [Nat.add_mul] at hpiece
        omega

theorem le_bytesOf {bvec : BioVec} {segments : List BioVec} (h : bvec ∈ segments) :
    bvec.bvLen.toNat ≤ bytesOf segments := by
  obtain ⟨front, back, rfl⟩ := List.append_of_mem h
  simp only [bytesOf, List.map_append, List.map_cons, List.sum_append, List.sum_cons]
  omega

/-- When some segment is not made of whole sectors, no piece reaches the end of the bio. -/
theorem sectorLayout_end_lt (sector : Nat) {segments : List BioVec}
    (htotal : fsdskSectorSize ∣ bytesOf segments)
    (h : ¬ ∀ bvec ∈ segments, fsdskSectorSize ∣ bvec.bvLen.toNat) :
    ∀ piece ∈ sectorLayout sector segments,
      piece.position + piece.bvec.bvLen.toNat <
        sector * fsdskSectorSize + bytesOf segments := by
  induction segments generalizing sector with
  | nil => simp [sectorLayout]
  | cons bvec rest ih =>
      rw [bytesOf_cons] at htotal ⊢
      by_cases hfirst : fsdskSectorSize ∣ bvec.bvLen.toNat
      · have hrest : ¬ ∀ other ∈ rest, fsdskSectorSize ∣ other.bvLen.toNat :=
          fun hall => h (List.forall_mem_cons.mpr ⟨hfirst, hall⟩)
        have hpos : 0 < bytesOf rest := by
          refine Nat.pos_of_ne_zero fun hzero => hrest fun other hmem => ?_
          have hle := le_bytesOf hmem
          rw [hzero, Nat.le_zero] at hle
          exact hle ▸ Nat.dvd_zero _
        have htotal' := (Nat.dvd_add_right hfirst).mp htotal
        have hmul := Nat.div_mul_cancel hfirst
        refine List.forall_mem_cons.mpr ⟨?_, fun piece hmem => ?_⟩
        · simp only
          omega
        · have hpiece := ih _ htotal' hrest piece hmem
          rw [Nat.add_mul] at hpiece
          omega
      · have hlt : bvec.bvLen.toNat / fsdskSectorSize * fsdskSectorSize < bvec.bvLen.toNat := by
          refine lt_of_le_of_ne (Nat.div_mul_le_self _ _) fun heq => hfirst ?_
          exact Dvd.intro_left _ heq
        have hpos : 0 < bytesOf rest := by
          refine Nat.pos_of_ne_zero fun hzero => hfirst ?_
          rwa [hzero, Nat.add_zero] at htotal
        refine List.forall_mem_cons.mpr ⟨?_, fun piece hmem => ?_⟩
        · simp only
          omega
        · have hpiece := sectorLayout_end_le _ rest piece hmem
          rw [Nat.add_mul] at hpiece
          omega

theorem bytesAt_const (value : UInt8) (start n : Nat) :
    bytesAt (fun _ => value) start n = List.replicate n value := by
  simp [bytesAt]

theorem content_const (value : UInt8) (bio : Bio) :
    bio.content (fun _ => value) = List.replicate (bytesOf bio.segments) value := by
  obtain ⟨sector, segments⟩ := bio
  simp only [Bio.content, bytesAt_const]
  induction segments with
  | nil => rfl
  | cons bvec rest ih => rw [List.flatMap_cons, ih, bytesOf_cons, List.replicate_add]

/-- A write of ones onto a disk of zeros does not reach the last byte. -/
theorem whole_of_writesContiguously (layer : BlockLayer) {bio : Bio} (hinside : bio.Inside)
    (htotal : fsdskSectorSize ∣ bytesOf bio.segments) (h : WritesContiguously layer bio) :
    bio.Whole := by
  by_contra hnot
  have hpos : 0 < bytesOf bio.segments := by
    refine Nat.pos_of_ne_zero fun hzero => hnot fun bvec hmem => ?_
    have hle := le_bytesOf hmem
    rw [hzero, Nat.le_zero] at hle
    exact hle ▸ Nat.dvd_zero _
  obtain ⟨passes, final, hrun, hfinal⟩ := h ⟨fun _ => 0, fun _ => 1⟩
  obtain ⟨passes', final', hrun', hfinal'⟩ :=
    write_run layer hinside ⟨fun _ => 0, fun _ => 1⟩
  have hsame : final = final' := by
    have hrun := hrun passes'
    rw [Nat.add_comm, hrun' passes, Option.some.injEq, Except.ok.injEq] at hrun
    exact hrun.symm
  have hlast := congrFun (hfinal.symm.trans (hsame ▸ hfinal'))
    (bio.biSector.toNat * fsdskSectorSize + (bytesOf bio.segments - 1))
  rw [Patch.applyAll_of_none, content_const, laidOut, if_pos (Nat.le_add_right _ _),
    Nat.add_sub_cancel_left, List.getElem?_replicate_of_lt (by omega)] at hlast
  · exact absurd hlast (show ¬ (1 : UInt8) = 0 by decide)
  · intro patch hpatch
    obtain ⟨piece, hpiece, rfl⟩ := List.mem_map.mp hpatch
    have hshort := sectorLayout_end_lt _ htotal hnot piece hpiece
    exact if_neg (by omega)

theorem writesContiguously_iff (layer : BlockLayer) {bio : Bio} (hinside : bio.Inside)
    (htotal : fsdskSectorSize ∣ bytesOf bio.segments) :
    WritesContiguously layer bio ↔ bio.Whole :=
  ⟨whole_of_writesContiguously layer hinside htotal, writesContiguously_of_whole layer hinside⟩

/-! ## One sector, in one segment, in two and in halves -/

def oneSegment : Bio := ⟨0, [⟨0, 512, 0⟩]⟩

def twoHalves : Bio := ⟨0, [⟨0, 256, 0⟩, ⟨0, 256, 256⟩]⟩

def halves : Ram := ⟨fun _ => 0, fun i => if i < 256 then 1 else 2⟩

theorem halves_overlap :
    twoHalves.Inside ∧ fsdskSectorSize ∣ bytesOf twoHalves.segments ∧
    oneSegment.biSector = twoHalves.biSector ∧
    oneSegment.content halves.memory = twoHalves.content halves.memory ∧
    ∃ passes final passes' final',
      (∀ fuel, fsdskRequest kernelLayer (passes + fuel) [⟨.write, [oneSegment]⟩] halves =
        some (.ok final)) ∧
      (∀ fuel, fsdskRequest kernelLayer (passes' + fuel) [⟨.write, [twoHalves]⟩] halves =
        some (.ok final')) ∧
      final.ram.data 256 = 2 ∧ final'.ram.data 256 = 0 := by
  have hone : oneSegment.Inside := by decide +kernel
  have htwo : twoHalves.Inside := by decide +kernel
  obtain ⟨passes, final, hrun, hdata⟩ := write_run kernelLayer hone halves
  obtain ⟨passes', final', hrun', hdata'⟩ := write_run kernelLayer htwo halves
  refine ⟨htwo, by decide +kernel, rfl, by decide +kernel, passes, final, passes', final', hrun,
    hrun', ?_, ?_⟩
  · rw [hdata]
    decide +kernel
  · rw [hdata']
    decide +kernel

def twoSegments : Bio := ⟨3, [⟨0, 512, 0⟩, ⟨0, 512, 512⟩]⟩

/-- The same two sectors in one segment. -/
def oneLongSegment : Bio := ⟨3, [⟨0, 1024, 0⟩]⟩

theorem two_sectors_agree :
    ∃ passes final passes' final',
      (∀ fuel, fsdskRequest kernelLayer (passes + fuel) [⟨.write, [twoSegments]⟩] twoSectors =
        some (.ok final)) ∧
      (∀ fuel, fsdskRequest kernelLayer (passes' + fuel) [⟨.write, [oneLongSegment]⟩]
        twoSectors = some (.ok final')) ∧
      final.ram.data = final'.ram.data ∧
      final.ram.data = laidOut (fun _ => 0) (3 * fsdskSectorSize)
        (List.replicate 512 1 ++ List.replicate 512 2) := by
  have hcontent : twoSegments.content twoSectors.memory =
      List.replicate 512 1 ++ List.replicate 512 2 := by
    decide +kernel
  obtain ⟨passes, final, passes', final', hrun, hrun', hsame, hdata⟩ :=
    @splits_agree kernelLayer twoSegments oneLongSegment twoSectors twoSectors rfl rfl
      (by decide +kernel) (by decide +kernel) (by decide +kernel) (by decide +kernel)
  exact ⟨passes, final, passes', final', hrun, hrun', hsame, hcontent ▸ hdata⟩

end FarsightDriver.RamDisk
