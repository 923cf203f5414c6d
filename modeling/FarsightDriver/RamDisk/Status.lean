import FarsightDriver.RamDisk.Separated

/-!
# Whose status a segment is completed with

A bio on the disk is completed with an error as long as a later bio of its
request is refused.  The test itself is made in 64 bits: a bio whose end wraps
around is not refused, and its copy leaves the array.
-/

namespace FarsightDriver.RamDisk

open FarsightDriver.Foundation

/-- A bio as the layer above makes them: segments of whole sectors, and `bi_size` counts them. -/
structure Bio.Formed (bio : Bio) : Prop where
  nonempty : bio.segments ≠ []
  whole : ∀ bvec ∈ bio.segments, fsdskSectorSize ∣ bvec.bvLen.toNat
  counted : bytesOf bio.segments < 2 ^ 32

instance (bio : Bio) : Decidable bio.Formed :=
  decidable_of_iff
    (bio.segments ≠ [] ∧ (∀ bvec ∈ bio.segments, fsdskSectorSize ∣ bvec.bvLen.toNat) ∧
      bytesOf bio.segments < 2 ^ 32)
    ⟨fun h => ⟨h.1, h.2.1, h.2.2⟩, fun h => ⟨h.nonempty, h.whole, h.counted⟩⟩

theorem bytesOf_whole {segments : List BioVec}
    (h : ∀ bvec ∈ segments, fsdskSectorSize ∣ bvec.bvLen.toNat) :
    fsdskSectorSize ∣ bytesOf segments := by
  induction segments with
  | nil => exact Nat.dvd_zero _
  | cons bvec rest ih =>
      exact Nat.dvd_add (h bvec List.mem_cons_self)
        (ih fun other hmem => h other (List.mem_cons_of_mem _ hmem))

theorem Bio.Formed.advance {sector : SectorT} {bvec next : BioVec} {rest : List BioVec}
    (h : Bio.Formed ⟨sector, bvec :: next :: rest⟩) :
    Bio.Formed ⟨sector + (bvec.bvLen >>> 9).setWidth 64, next :: rest⟩ := by
  refine ⟨List.cons_ne_nil _ _, fun other hmem => h.whole other (List.mem_cons_of_mem _ hmem), ?_⟩
  exact lt_of_le_of_lt (Nat.le_add_left _ _) h.counted

theorem bioEndSector_toNat {sector : SectorT} {segments : List BioVec}
    (h : bytesOf segments < 2 ^ 32) :
    (bioEndSector ⟨sector, segments⟩).toNat =
      (sector.toNat + bytesOf segments / fsdskSectorSize) % 2 ^ 64 := by
  rw [bioEndSector, BitVec.toNat_add, shiftRight_nine, biSize_toNat, Nat.mod_eq_of_lt h]

theorem accepted_advance {sector : SectorT} {bvec : BioVec} {rest : List BioVec}
    (hwhole : ∀ other ∈ bvec :: rest, fsdskSectorSize ∣ other.bvLen.toNat)
    (hcounted : bytesOf (bvec :: rest) < 2 ^ 32) :
    Bio.Accepted ⟨sector + (bvec.bvLen >>> 9).setWidth 64, rest⟩ ↔
      Bio.Accepted ⟨sector, bvec :: rest⟩ := by
  have hfirst := hwhole bvec List.mem_cons_self
  have hrest : bytesOf rest < 2 ^ 32 := lt_of_le_of_lt (Nat.le_add_left _ _) hcounted
  have hend : bioEndSector ⟨sector + (bvec.bvLen >>> 9).setWidth 64, rest⟩ =
      bioEndSector ⟨sector, bvec :: rest⟩ := by
    apply BitVec.eq_of_toNat_eq
    rw [bioEndSector_toNat hrest, bioEndSector_toNat hcounted, BitVec.toNat_add, shiftRight_nine,
      bytesOf_cons, Nat.add_div_of_dvd_right hfirst]
    omega
  rw [Bio.Accepted, Bio.Accepted, hend]

theorem staysOut_of_refused {sector : SectorT} {segments : List BioVec}
    (hwhole : ∀ bvec ∈ segments, fsdskSectorSize ∣ bvec.bvLen.toNat)
    (hcounted : bytesOf segments < 2 ^ 32) (h : ¬ Bio.Accepted ⟨sector, segments⟩) :
    StaysOut sector segments := by
  induction segments generalizing sector with
  | nil => trivial
  | cons bvec rest ih =>
      refine ⟨h, ih (fun other hmem => hwhole other (List.mem_cons_of_mem _ hmem)) ?_ ?_⟩
      · exact lt_of_le_of_lt (Nat.le_add_left _ _) hcounted
      · exact (accepted_advance hwhole hcounted).not.mpr h

def offsetOf (sector : SectorT) : Nat :=
  ((sector * BitVec.ofNat 64 fsdskSectorSize).setWidth 32).toNat

theorem offsetOf_eq (sector : SectorT) :
    offsetOf sector = sector.toNat * fsdskSectorSize % 2 ^ 32 := by
  simp only [offsetOf, BitVec.toNat_setWidth, BitVec.toNat_mul, BitVec.toNat_ofNat,
    fsdskSectorSize]
  omega

theorem copySegment_error (dir : Direction) {sector : SectorT} {bvec : BioVec} (ram : Ram)
    (h : fsdskSize < offsetOf sector + bvec.bvLen.toNat) :
    copySegment dir sector bvec ram = .error .outOfBounds := if_pos h

theorem copySegment_ok (dir : Direction) {sector : SectorT} {bvec : BioVec} (ram : Ram)
    (h : ¬ fsdskSize < offsetOf sector + bvec.bvLen.toNat) :
    ∃ ram', copySegment dir sector bvec ram = .ok ram' := by
  cases dir <;> exact ⟨_, if_neg h⟩

/-- Segments that go on to the end of the 32-bit offsets leave the array. -/
theorem copySegments_fault (dir : Direction) {sector : SectorT} {segments : List BioVec}
    (ram : Ram) (hwhole : ∀ bvec ∈ segments, fsdskSectorSize ∣ bvec.bvLen.toNat)
    (h : 2 ^ 32 ≤ offsetOf sector + bytesOf segments) :
    copySegments dir sector segments ram = .error .outOfBounds := by
  induction segments generalizing sector ram with
  | nil =>
      have hlt := ((sector * BitVec.ofNat 64 fsdskSectorSize).setWidth 32).isLt
      rw [show bytesOf [] = 0 from rfl, offsetOf] at h
      omega
  | cons bvec rest ih =>
      by_cases hfault : fsdskSize < offsetOf sector + bvec.bvLen.toNat
      · simp only [copySegments, copySegment_error dir ram hfault, bind, Except.bind]
      · have hfirst := hwhole bvec List.mem_cons_self
        have hnext : offsetOf (sector + (bvec.bvLen >>> 9).setWidth 64) =
            offsetOf sector + bvec.bvLen.toNat := by
          rw [offsetOf_eq] at hfault ⊢
          rw [offsetOf_eq, BitVec.toNat_add, shiftRight_nine]
          rw [fsdskSize_eq] at hfault
          rw [fsdskSectorSize] at hfault hfirst ⊢
          omega
        obtain ⟨ram', hcopy⟩ := copySegment_ok dir ram hfault
        simp only [copySegments, hcopy, bind, Except.bind]
        refine ih ram' (fun other hmem => hwhole other (List.mem_cons_of_mem _ hmem)) ?_
        rw [hnext, Nat.add_assoc]
        exact h

/-- The copy of a bio that is accepted because its end wraps around leaves the array. -/
theorem copySegments_wrapped (dir : Direction) {sector : SectorT} {segments : List BioVec}
    (ram : Ram) (h : Bio.Formed ⟨sector, segments⟩) (haccepted : Bio.Accepted ⟨sector, segments⟩)
    (hout : ¬ Bio.Inside ⟨sector, segments⟩) :
    copySegments dir sector segments ram = .error .outOfBounds := by
  refine copySegments_fault dir ram h.whole ?_
  have hcounted : bytesOf segments < 2 ^ 32 := h.counted
  obtain ⟨sectors, hsectors⟩ := bytesOf_whole h.whole
  have hlt := sector.isLt
  have hcap : getCapacity.toNat = 16384 := by decide
  rw [Bio.Accepted, BitVec.lt_def, bioEndSector_toNat hcounted, hcap] at haccepted
  rw [inside_iff, fsdskSize_eq] at hout
  rw [offsetOf_eq]
  change bytesOf segments = _ at hsectors
  rw [fsdskSectorSize] at *
  omega

theorem forEachBio_ok {dir : Direction} {bios : List Bio} {status status' : Int} {ram ram' : Ram}
    (hformed : ∀ bio ∈ bios, bio.Formed)
    (h : forEachBio dir bios status ram = .ok (status', ram')) :
    ∀ bio ∈ visited bios, bio.Inside := by
  induction bios generalizing status ram with
  | nil => simp [visited]
  | cons bio rest ih =>
      by_cases hbio : bio.Accepted
      · have hvisited : visited (bio :: rest) = bio :: visited rest := by
          simp [visited, hbio]
        have hinside : bio.Inside := by
          by_contra hout
          have hfault := copySegments_wrapped dir ram (hformed bio List.mem_cons_self) hbio hout
          simp only [forEachBio, if_neg hbio, hfault, bind, Except.bind, reduceCtorEq] at h
        rw [hvisited]
        simp only [forEachBio, if_neg hbio, copySegments_eq dir ram hinside, bind, Except.bind]
          at h
        exact List.forall_mem_cons.mpr
          ⟨hinside, ih (fun other hmem => hformed other (List.mem_cons_of_mem _ hmem)) h⟩
      · simp [visited, hbio]

theorem Separated.nil : Separated [] := ⟨List.Pairwise.nil, nofun⟩

theorem separated_of_afterCurrent {dir : Direction} {bio : Bio} {bios : List Bio}
    (h : Separated (Request.afterCurrent ⟨dir, bio :: bios⟩).bios) : Separated bios := by
  obtain ⟨sector, segments⟩ := bio
  match segments with
  | [] => exact h
  | [bvec] => exact h
  | bvec :: next :: rest => exact h.tail

theorem formed_afterCurrent {dir : Direction} {bio : Bio} {bios : List Bio}
    (h : ∀ other ∈ bio :: bios, other.Formed) :
    ∀ other ∈ (Request.afterCurrent ⟨dir, bio :: bios⟩).bios, other.Formed := by
  obtain ⟨hbio, hbios⟩ := List.forall_mem_cons.mp h
  obtain ⟨sector, segments⟩ := bio
  match segments with
  | [] => exact hbios
  | [bvec] => exact hbios
  | bvec :: next :: rest => exact List.forall_mem_cons.mpr ⟨hbio.advance, hbios⟩

theorem mem_visited {bio : Bio} {bios : List Bio} (h : bio.Accepted) :
    bio ∈ visited (bio :: bios) := by
  simp [visited, h]

theorem visited_of_passStatus {bios : List Bio} (h : passStatus bios = 0) :
    visited bios = bios := by
  have hall : ∀ bio ∈ bios, bio.Accepted := by
    by_contra hrefused
    rw [passStatus, if_neg hrefused] at h
    exact absurd h (by decide)
  exact List.takeWhile_eq_self_iff.mpr fun bio hmem => decide_eq_true (hall bio hmem)

/-- A pass that gives the first bio its own status, before passes that separate the rest. -/
theorem separated_of_pass (dir : Direction) {bio : Bio} {bios : List Bio}
    (hinside : ∀ other ∈ visited (bio :: bios), other.Inside)
    (hout : ¬ bio.Inside → StaysOut bio.biSector bio.segments)
    (hstatus : passStatus (bio :: bios) = bio.ownStatus)
    (hrest : Separated (Request.afterCurrent ⟨dir, bio :: bios⟩).bios) :
    Separated (bio :: bios) := by
  have htail := separated_of_afterCurrent hrest
  refine ⟨List.pairwise_cons.mpr ⟨fun other hmem hbio => ?_, htail.order⟩, ?_⟩
  · rw [Bio.ownStatus, if_pos hbio] at hstatus
    rw [visited_of_passStatus hstatus] at hinside
    exact hinside other (List.mem_cons_of_mem _ hmem)
  · exact List.forall_mem_cons.mpr ⟨hout, htail.out⟩

theorem completion_outcome (dir : Direction) {bio : Bio} (bios : List Bio)
    (h : bio.segments ≠ []) : ∃ bvec, ∀ status memory,
      (Request.completion ⟨dir, bio :: bios⟩ status memory).map Completion.outcome =
        [(bvec, status)] := by
  obtain ⟨sector, segments⟩ := bio
  cases segments with
  | nil => contradiction
  | cons bvec rest => exact ⟨bvec, fun _ _ => rfl⟩

theorem separated_of_request (layer : BlockLayer) (fuel : Nat) {req : Request} {run final : Run}
    (hformed : ∀ bio ∈ req.bios, bio.Formed)
    (h : requestLoop layer fuel (some req) run = some (.ok final)) :
    ∃ fuel' done tail,
      requestLoop layer fuel' (blkFetchRequest run.queue).1 (Run.fetched done) =
        some (.ok final) ∧
      done.queue = run.queue ∧
      done.log.map Completion.outcome = run.log.map Completion.outcome ++ tail ∧
      tail.length = req.outcomes.length ∧ (tail = req.outcomes → Separated req.bios) := by
  induction fuel generalizing req run with
  | zero => simp only [requestLoop, reduceCtorEq] at h
  | succ fuel ih =>
      obtain ⟨dir, bios⟩ := req
      cases bios with
      | nil =>
          rw [requestLoop_no_bios] at h
          exact ⟨fuel, run, [], h, rfl, (List.append_nil _).symm, rfl, fun _ => .nil⟩
      | cons bio bios =>
          have hbio := hformed bio List.mem_cons_self
          have hinside : ∀ other ∈ visited (bio :: bios), other.Inside := by
            cases hresult : forEachBio dir (bio :: bios) run.status run.ram with
            | error fault => simp only [requestLoop, hresult, reduceCtorEq, Option.some.injEq] at h
            | ok result => exact forEachBio_ok hformed hresult
          have hout : ¬ bio.Inside → StaysOut bio.biSector bio.segments := fun hnot =>
            staysOut_of_refused hbio.whole hbio.counted fun haccepted =>
              hnot (hinside bio (mem_visited haccepted))
          have hpass : forEachBio dir (bio :: bios) run.status run.ram =
              .ok (passStatus (bio :: bios),
                run.ram.transfer dir ((visited (bio :: bios)).flatMap Bio.copies)) := by
            rw [forEachBio_status dir (List.cons_ne_nil _ _)]
            exact forEachBio_eq dir run.ram hinside
          rw [@requestLoop_passed layer ⟨dir, bio :: bios⟩ run _ _ hpass] at h
          obtain ⟨bvec, hbvec⟩ := completion_outcome dir bios hbio.nonempty
          have houtcomes : Request.outcomes ⟨dir, bio :: bios⟩ =
              (bvec, bio.ownStatus) :: (Request.afterCurrent ⟨dir, bio :: bios⟩).outcomes := by
            rw [outcomes_afterCurrent dir bios hout run.ram.memory, hbvec]
            rfl
          rw [houtcomes]
          by_cases hdone : (Request.afterCurrent ⟨dir, bio :: bios⟩).bios = []
          · rw [if_pos hdone] at h
            refine ⟨fuel, _, [(bvec, passStatus (bio :: bios))], h, rfl, ?_, ?_, fun htail => ?_⟩
            · rw [Run.passed, List.map_append, hbvec]
            · simp [Request.outcomes, hdone]
            · obtain ⟨hstatus, -⟩ := List.cons.inj htail
              exact separated_of_pass dir hinside hout (congrArg Prod.snd hstatus)
                (hdone ▸ .nil)
          · rw [if_neg hdone] at h
            obtain ⟨fuel', done, tail, hloop, hqueue, hlog, hlength, hexact⟩ :=
              ih (formed_afterCurrent hformed) h
            refine ⟨fuel', done, (bvec, passStatus (bio :: bios)) :: tail, hloop, hqueue, ?_,
              ?_, fun htail => ?_⟩
            · rw [hlog, Run.passed, List.map_append, hbvec, List.append_assoc]
              rfl
            · rw [List.length_cons, List.length_cons, hlength]
            · obtain ⟨hstatus, hrest⟩ := List.cons.inj htail
              exact separated_of_pass dir hinside hout (congrArg Prod.snd hstatus) (hexact hrest)

theorem separated_of_queue (layer : BlockLayer) {queue : List Request} {fuel : Nat}
    {run final : Run} (hqueue : run.queue = queue)
    (hformed : ∀ req ∈ queue, ∀ bio ∈ req.bios, bio.Formed)
    (h : requestLoop layer fuel (blkFetchRequest queue).1 run.fetched = some (.ok final)) :
    ∃ tail, final.log.map Completion.outcome = run.log.map Completion.outcome ++ tail ∧
      tail.length = (queue.flatMap Request.outcomes).length ∧
      (tail = queue.flatMap Request.outcomes → ∀ req ∈ queue, Separated req.bios) := by
  induction queue generalizing fuel run with
  | nil =>
      have hfinal : run.fetched = final := by
        cases fuel <;> simpa [requestLoop, blkFetchRequest] using h
      exact ⟨[], hfinal ▸ (List.append_nil _).symm, rfl, fun _ _ hmem => absurd hmem (by simp)⟩
  | cons req rest ih =>
      obtain ⟨hreq, hothers⟩ := List.forall_mem_cons.mp hformed
      have hrest : run.fetched.queue = rest := by
        rw [Run.fetched, hqueue]
        rfl
      obtain ⟨fuel', done, front, hloop, hdone, hlog, hlength, hexact⟩ :=
        separated_of_request layer fuel hreq h
      rw [hrest] at hloop
      obtain ⟨tail, hlog', hlength', hexact'⟩ := ih (hdone.trans hrest) hothers hloop
      refine ⟨front ++ tail, ?_, ?_, fun hall => ?_⟩
      · rw [hlog', hlog, List.append_assoc]
        rfl
      · rw [List.flatMap_cons, List.length_append, List.length_append, hlength, hlength']
      · obtain ⟨hfront, htail⟩ := List.append_inj hall hlength
        exact List.forall_mem_cons.mpr ⟨hexact hfront, hexact' htail⟩

theorem separated_of_ownStatuses (layer : BlockLayer) {requests : List Request}
    (hformed : ∀ req ∈ requests, ∀ bio ∈ req.bios, bio.Formed)
    (h : OwnStatuses layer requests) : ∀ req ∈ requests, Separated req.bios := by
  obtain ⟨passes, final, hrun, hlog, -⟩ := h ⟨fun _ => 0, fun _ => 0⟩
  have hqueue : (⟨⟨fun _ => 0, fun _ => 0⟩, requests, 0, []⟩ : Run).queue = requests := rfl
  obtain ⟨tail, htail, -, hexact⟩ := separated_of_queue layer hqueue hformed (hrun 0)
  exact hexact (htail.symm.trans hlog)

/--
Bios of any shape are completed with their own statuses when the ones beyond the
disk come first and are refused; for bios of whole sectors, only then.
-/
theorem own_statuses_iff_separated (layer : BlockLayer) (requests : List Request) :
    ((∀ req ∈ requests, Separated req.bios) → OwnStatuses layer requests) ∧
    ((∀ req ∈ requests, ∀ bio ∈ req.bios, bio.Formed) →
      (OwnStatuses layer requests ↔ ∀ req ∈ requests, Separated req.bios)) :=
  ⟨ownStatuses_of_separated layer, fun hformed =>
    ⟨separated_of_ownStatuses layer hformed, ownStatuses_of_separated layer⟩⟩

/-- The second bio begins where the disk ends. -/
def acrossTheEnd : List Request :=
  [⟨.write, [⟨16383, [⟨0, 512, 0⟩]⟩, ⟨16384, [⟨0, 512, 512⟩]⟩]⟩]

def beyondBeforeInside : List Request :=
  [⟨.write, [⟨16384, [⟨0, 512, 512⟩]⟩, ⟨0, [⟨0, 512, 0⟩]⟩]⟩, ⟨.read, [⟨0, [⟨1, 512, 0⟩]⟩]⟩]

def statuses (layer : BlockLayer) (fuel : Nat) (requests : List Request) (ram : Ram) :
    Option (Checked (List (BioVec × Int))) :=
  (fsdskRequest layer fuel requests ram).map fun result =>
    result.map fun run => run.log.map Completion.outcome

/-- The segment that is on the disk is completed with `-EIO` as well. -/
theorem across_the_end_status :
    statuses kernelLayer 2 acrossTheEnd twoSectors =
      some (.ok [(⟨0, 512, 0⟩, -eio), (⟨0, 512, 512⟩, -eio)]) ∧
    acrossTheEnd.flatMap Request.outcomes = [(⟨0, 512, 0⟩, 0), (⟨0, 512, 512⟩, -eio)] ∧
    ¬ OwnStatuses kernelLayer acrossTheEnd := by
  refine ⟨by decide +kernel, by decide +kernel, fun h => ?_⟩
  have hformed : ∀ req ∈ acrossTheEnd, ∀ bio ∈ req.bios, bio.Formed := by decide +kernel
  exact absurd (separated_of_ownStatuses kernelLayer hformed h) (by decide +kernel)

theorem beyond_before_inside_status : OwnStatuses kernelLayer beyondBeforeInside :=
  (own_statuses_iff_separated kernelLayer beyondBeforeInside).1 (by decide +kernel)

end FarsightDriver.RamDisk
