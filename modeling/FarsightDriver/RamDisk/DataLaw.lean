import FarsightDriver.RamDisk.Passes

/-!
# What the RAM disk does to data

When all bios are on the disk and made of whole sectors, a pass applies the
patches of all bios that a request still has; the next pass applies an end of
that list again, which changes nothing.
-/

namespace FarsightDriver.RamDisk

open FarsightDriver.Foundation

/-- Segments follow each other on the disk without a gap. -/
def layout : Nat → List BioVec → List Piece
  | _, [] => []
  | position, bvec :: rest =>
      ⟨position, bvec⟩ :: layout (position + bvec.bvLen.toNat) rest

def Bio.pieces (bio : Bio) : List Piece :=
  layout (bio.biSector.toNat * fsdskSectorSize) bio.segments

def Request.pieces (req : Request) : List Piece := req.bios.flatMap Bio.pieces

/-- Segments of whole sectors, and all of them on the disk. -/
structure Bio.Fits (bio : Bio) : Prop where
  whole : ∀ bvec ∈ bio.segments, fsdskSectorSize ∣ bvec.bvLen.toNat
  inside : bio.biSector.toNat * fsdskSectorSize + bytesOf bio.segments ≤ fsdskSize

instance (bio : Bio) : Decidable bio.Fits :=
  decidable_of_iff
    ((∀ bvec ∈ bio.segments, fsdskSectorSize ∣ bvec.bvLen.toNat) ∧
      bio.biSector.toNat * fsdskSectorSize + bytesOf bio.segments ≤ fsdskSize)
    ⟨fun h => ⟨h.1, h.2⟩, fun h => ⟨h.whole, h.inside⟩⟩

def Request.Fits (req : Request) : Prop := ∀ bio ∈ req.bios, bio.Fits

instance (req : Request) : Decidable req.Fits :=
  inferInstanceAs (Decidable (∀ _ ∈ _, _))

/-! ## Bios of whole sectors -/

theorem sectorLayout_eq_layout (sector : Nat) {segments : List BioVec}
    (h : ∀ bvec ∈ segments, fsdskSectorSize ∣ bvec.bvLen.toNat) :
    sectorLayout sector segments = layout (sector * fsdskSectorSize) segments := by
  induction segments generalizing sector with
  | nil => rfl
  | cons bvec rest ih =>
      rw [sectorLayout, layout, ih _ fun other hmem => h other (List.mem_cons_of_mem _ hmem),
        Nat.add_mul, Nat.div_mul_cancel (h bvec List.mem_cons_self)]

theorem Bio.Fits.copies_eq {bio : Bio} (h : bio.Fits) : bio.copies = bio.pieces :=
  sectorLayout_eq_layout _ h.whole

theorem Bio.Fits.isInside {bio : Bio} (h : bio.Fits) : bio.Inside := h.inside

theorem forEachBio_of_fits (dir : Direction) {bios : List Bio} (ram : Ram)
    (h : ∀ bio ∈ bios, bio.Fits) :
    forEachBio dir bios 0 ram = .ok (0, ram.transfer dir (bios.flatMap Bio.pieces)) := by
  have hpieces : bios.flatMap Bio.copies = bios.flatMap Bio.pieces :=
    List.flatMap_congr fun bio hmem => (h bio hmem).copies_eq
  rw [← hpieces]
  exact forEachBio_inside dir ram fun bio hmem => (h bio hmem).isInside

/-! ## Passes over one request -/

def Request.currentPieces (req : Request) : List Piece :=
  match req.current with
  | none => []
  | some (sector, bvec) => [⟨sector.toNat * fsdskSectorSize, bvec⟩]

def Piece.completion (dir : Direction) (memory : Cells) (piece : Piece) : Completion :=
  ⟨dir, piece.position, piece.bvec, 0,
    bytesAt memory piece.bvec.buffer piece.bvec.bvLen.toNat⟩

theorem completion_eq (req : Request) (memory : Cells) :
    req.completion 0 memory = req.currentPieces.map (Piece.completion req.dir memory) := by
  unfold Request.completion Request.currentPieces
  cases req.current <;> rfl

theorem Bio.Fits.advance {sector : SectorT} {bvec : BioVec} {rest : List BioVec}
    (h : Bio.Fits ⟨sector, bvec :: rest⟩) :
    Bio.Fits ⟨sector + (bvec.bvLen >>> 9).setWidth 64, rest⟩ ∧
      Bio.pieces ⟨sector, bvec :: rest⟩ =
        ⟨sector.toNat * fsdskSectorSize, bvec⟩ ::
          Bio.pieces ⟨sector + (bvec.bvLen >>> 9).setWidth 64, rest⟩ := by
  have hinside := h.isInside
  have hfits : Bio.Fits ⟨sector + (bvec.bvLen >>> 9).setWidth 64, rest⟩ :=
    ⟨fun other hmem => h.whole other (List.mem_cons_of_mem _ hmem), hinside.advance⟩
  exact ⟨hfits, by rw [← h.copies_eq, copies_advance hinside, hfits.copies_eq]⟩

theorem Request.Fits.afterCurrent {req : Request} (h : req.Fits) :
    req.afterCurrent.Fits ∧ req.pieces = req.currentPieces ++ req.afterCurrent.pieces := by
  obtain ⟨dir, bios⟩ := req
  cases bios with
  | nil => exact ⟨h, rfl⟩
  | cons bio bios =>
      have hrest : Request.Fits ⟨dir, bios⟩ :=
        fun other hmem => h other (List.mem_cons_of_mem _ hmem)
      obtain ⟨sector, segments⟩ := bio
      cases segments with
      | nil => exact ⟨hrest, rfl⟩
      | cons bvec segments =>
          obtain ⟨hfits, hpieces⟩ := (h _ List.mem_cons_self).advance
          cases segments with
          | nil =>
              refine ⟨hrest, ?_⟩
              simp only [Request.pieces, List.flatMap_cons, hpieces]
              rfl
          | cons next rest =>
              refine ⟨?_, ?_⟩
              · intro other hmem
                rcases List.mem_cons.mp hmem with rfl | hmem
                · exact hfits
                · exact hrest other hmem
              · simp only [Request.pieces, List.flatMap_cons, hpieces]
                rfl

def Run.pass (run : Run) (req : Request) : Run :=
  let ram := run.ram.transfer req.dir req.pieces
  { run with
    ram := ram
    log := run.log ++ req.currentPieces.map (Piece.completion req.dir ram.memory) }

theorem requestLoop_pass (layer : BlockLayer) {req : Request} (h : req.Fits) {run : Run}
    (hstatus : run.status = 0) (fuel : Nat) :
    requestLoop layer (fuel + 1) (some req) run =
      if req.afterCurrent.bios = [] then
        requestLoop layer fuel (blkFetchRequest run.queue).1 (run.pass req).fetched
      else requestLoop layer fuel (some req.afterCurrent) (run.pass req) := by
  have hpass : forEachBio req.dir req.bios run.status run.ram =
      .ok (0, run.ram.transfer req.dir req.pieces) := by
    rw [hstatus]
    exact forEachBio_of_fits req.dir run.ram h
  have hpassed : run.passed req req.pieces 0 = run.pass req := by
    simp only [Run.passed, Run.pass, completion_eq]
    rw [← hstatus]
  rw [requestLoop_passed layer hpass, hpassed]

def Ram.serve (ram : Ram) (req : Request) : Ram := ram.transfer req.dir req.pieces

def Run.serve (run : Run) (req : Request) : Run :=
  { run with
    ram := run.ram.serve req
    log := run.log ++
      req.pieces.map (Piece.completion req.dir (run.ram.serve req).memory) }

/-- The rest of the request is an end of what the pass has copied. -/
theorem pass_serve {req : Request} (h : req.Fits) (run : Run) :
    (run.pass req).serve req.afterCurrent = run.serve req := by
  obtain ⟨-, hpieces⟩ := h.afterCurrent
  have hram : (run.ram.transfer req.dir req.pieces).transfer req.dir
      req.afterCurrent.pieces = run.ram.transfer req.dir req.pieces := by
    rw [hpieces]
    exact transfer_suffix _ _ _ _
  simp only [Run.serve, Ram.serve, Run.pass, afterCurrent_dir, hram, List.append_assoc,
    ← List.map_append, ← hpieces]

theorem pass_last {req : Request} (h : req.Fits) (hdone : req.afterCurrent.bios = []) (run : Run) :
    run.pass req = run.serve req := by
  obtain ⟨-, hpieces⟩ := h.afterCurrent
  have hnone : req.pieces = req.currentPieces := by
    rw [hpieces, Request.pieces, hdone]
    simp
  simp only [Run.pass, Run.serve, Ram.serve, ← hnone]

theorem goes_request (layer : BlockLayer) {req : Request} (h : req.Fits) {run : Run}
    (hstatus : run.status = 0) :
    Goes layer (some req) run (blkFetchRequest run.queue).1 (run.serve req).fetched := by
  induction req using Request.pass_induction generalizing run with
  | pass req ih =>
      have hstep := requestLoop_pass layer h hstatus
      by_cases hdone : req.afterCurrent.bios = []
      · rw [← pass_last h hdone]
        exact .step fun fuel => by rw [hstep, if_pos hdone]
      · have hfirst : Goes layer (some req) run (some req.afterCurrent) (run.pass req) :=
          .step fun fuel => by rw [hstep, if_neg hdone]
        have hstatus' : (run.pass req).status = 0 := hstatus
        rw [← pass_serve h]
        exact hfirst.trans (ih hdone h.afterCurrent.1 hstatus')

/-! ## The whole queue -/

def Ram.completions (ram : Ram) : List Request → List Completion
  | [] => []
  | req :: rest =>
      req.pieces.map (Piece.completion req.dir (ram.serve req).memory) ++
        (ram.serve req).completions rest

theorem goes_queue (layer : BlockLayer) {queue : List Request}
    (h : ∀ req ∈ queue, req.Fits) {run : Run} (hstatus : run.status = 0)
    (hqueue : run.queue = queue) :
    Goes layer (blkFetchRequest queue).1 run.fetched none
      ⟨queue.foldl Ram.serve run.ram, [], 0, run.log ++ run.ram.completions queue⟩ := by
  induction queue generalizing run with
  | nil =>
      have hdone : run.fetched = ⟨run.ram, [], 0, run.log ++ []⟩ := by
        simp [Run.fetched, blkFetchRequest, hqueue, ← hstatus]
      rw [hdone]
      exact .refl
  | cons req rest ih =>
      have hreq := h req List.mem_cons_self
      have hrest : run.fetched.queue = rest := by
        rw [Run.fetched, hqueue]
        rfl
      have hfetched : run.fetched.status = 0 := hstatus
      have hserved : (run.fetched.serve req).status = 0 := hstatus
      have hfirst := goes_request layer hreq hfetched
      have hothers :=
        ih (fun other hmem => h other (List.mem_cons_of_mem _ hmem)) hserved hrest
      rw [hrest] at hfirst
      have hall := hfirst.trans hothers
      simp only [Run.serve, Run.fetched, List.append_assoc] at hall
      simp only [Run.fetched, Ram.completions, List.foldl_cons]
      exact hall

theorem fsdskRequest_eq (layer : BlockLayer) {queue : List Request}
    (h : ∀ req ∈ queue, req.Fits) (ram : Ram) :
    ∃ passes, ∀ fuel, fsdskRequest layer (passes + fuel) queue ram =
      some (.ok ⟨queue.foldl Ram.serve ram, [], 0, ram.completions queue⟩) := by
  have hstart : (⟨ram, queue, 0, []⟩ : Run).status = 0 := rfl
  exact (goes_queue layer h hstart rfl).ends

/-! ## Distinct buffers -/

def BioVec.Apart (left right : BioVec) : Prop :=
  left.buffer + left.bvLen.toNat ≤ right.buffer ∨
    right.buffer + right.bvLen.toNat ≤ left.buffer

instance (left right : BioVec) : Decidable (left.Apart right) :=
  inferInstanceAs (Decidable (_ ∨ _))

def Request.segments (req : Request) : List BioVec := req.bios.flatMap Bio.segments

/-- The patches of a request's write bios; `memory` holds their buffers. -/
def Request.stores (memory : Cells) (req : Request) : List (Patch Nat UInt8) :=
  match req.dir with
  | .read => []
  | .write => req.pieces.map (Piece.stored memory)

/-- The bytes that a segment's buffer is to hold when the segment is completed. -/
def Piece.expected (dir : Direction) (memory disk : Cells) (piece : Piece) : Completion :=
  ⟨dir, piece.position, piece.bvec, 0,
    match dir with
    | .read => bytesAt disk piece.position piece.bvec.bvLen.toNat
    | .write => bytesAt memory piece.bvec.buffer piece.bvec.bvLen.toNat⟩

/-- All completions in request order; each request finds the stores of the earlier ones. -/
def expected (memory : Cells) : Cells → List Request → List Completion
  | _, [] => []
  | disk, req :: rest =>
      req.pieces.map (Piece.expected req.dir memory disk) ++
        expected memory (Patch.applyAll (req.stores memory) disk) rest

theorem layout_bvec (position : Nat) (segments : List BioVec) :
    (layout position segments).map Piece.bvec = segments := by
  induction segments generalizing position with
  | nil => rfl
  | cons bvec rest ih => rw [layout, List.map_cons, ih]

theorem pieces_bvec (req : Request) : req.pieces.map Piece.bvec = req.segments := by
  unfold Request.pieces Request.segments
  rw [List.map_flatMap]
  exact congrArg (req.bios.flatMap ·) (funext fun bio => layout_bvec _ _)

theorem bytesAt_length (cells : Cells) (start n : Nat) : (bytesAt cells start n).length = n := by
  simp [bytesAt]

theorem bytesAt_congr {left right : Cells} {start start' n : Nat}
    (h : ∀ k < n, left (start + k) = right (start' + k)) :
    bytesAt left start n = bytesAt right start' n := by
  unfold bytesAt
  exact List.map_congr_left fun k hk => h k (List.mem_range.mp hk)

def Agree (pieces : List Piece) (left right : Cells) : Prop :=
  ∀ piece ∈ pieces, ∀ k < piece.bvec.bvLen.toNat,
    left (piece.bvec.buffer + k) = right (piece.bvec.buffer + k)

theorem stored_congr {pieces : List Piece} {left right : Cells} (h : Agree pieces left right) :
    pieces.map (Piece.stored left) = pieces.map (Piece.stored right) := by
  refine List.map_congr_left fun piece hmem => funext fun i => ?_
  unfold Piece.stored copyPatch
  split
  case isTrue hi => rw [h piece hmem _ (by omega)]
  case isFalse => rfl

theorem loaded_of_apart {piece : Piece} {bvec : BioVec} (data : Cells)
    (h : bvec.Apart piece.bvec) {k : Nat} (hk : k < bvec.bvLen.toNat) :
    piece.loaded data (bvec.buffer + k) = none := by
  unfold BioVec.Apart at h
  exact if_neg (by omega)

theorem loaded_bytes {pieces : List Piece} {piece : Piece} (data memory : Cells)
    (hapart : pieces.Pairwise fun a b => a.bvec.Apart b.bvec) (hmem : piece ∈ pieces) :
    bytesAt (Patch.applyAll (pieces.map (Piece.loaded data)) memory) piece.bvec.buffer
        piece.bvec.bvLen.toNat =
      bytesAt data piece.position piece.bvec.bvLen.toNat := by
  obtain ⟨front, back, rfl⟩ := List.append_of_mem hmem
  obtain ⟨-, hback, -⟩ := List.pairwise_append.mp hapart
  have hlater := (List.pairwise_cons.mp hback).1
  refine bytesAt_congr fun k hk => ?_
  rw [List.map_append, Patch.applyAll_append, List.map_cons]
  refine Patch.applyAll_cons_of_some ?_ ?_ _
  · unfold Piece.loaded copyPatch
    rw [if_pos ⟨by omega, by omega⟩, Nat.add_sub_cancel_left]
  · intro patch hpatch
    obtain ⟨other, hother, rfl⟩ := List.mem_map.mp hpatch
    exact loaded_of_apart data (hlater other hother) hk

theorem Request.serve_spec {ram : Ram} {memory : Cells} (req : Request) {later : List Piece}
    (hagree : Agree (req.pieces ++ later) ram.memory memory)
    (hapart : (req.pieces ++ later).Pairwise fun a b => a.bvec.Apart b.bvec) :
    (ram.serve req).data = Patch.applyAll (req.stores memory) ram.data ∧
    req.pieces.map (Piece.completion req.dir (ram.serve req).memory) =
      req.pieces.map (Piece.expected req.dir memory ram.data) ∧
    Agree later (ram.serve req).memory memory := by
  obtain ⟨hpieces, -, hcross⟩ := List.pairwise_append.mp hapart
  have hself : Agree req.pieces ram.memory memory :=
    fun piece hmem => hagree piece (List.mem_append_left _ hmem)
  have hlater : Agree later ram.memory memory :=
    fun piece hmem => hagree piece (List.mem_append_right _ hmem)
  cases hdir : req.dir with
  | write =>
      simp only [Ram.serve, Ram.transfer, Request.stores, hdir]
      refine ⟨by rw [stored_congr hself], ?_, hlater⟩
      refine List.map_congr_left fun piece hmem => ?_
      simp only [Piece.completion, Piece.expected]
      rw [bytesAt_congr (hself piece hmem)]
  | read =>
      simp only [Ram.serve, Ram.transfer, Request.stores, hdir]
      refine ⟨rfl, ?_, ?_⟩
      · refine List.map_congr_left fun piece hmem => ?_
        simp only [Piece.completion, Piece.expected]
        rw [loaded_bytes _ _ hpieces hmem]
      · intro piece hmem k hk
        rw [Patch.applyAll_of_none]
        · exact hlater piece hmem k hk
        · intro patch hpatch
          obtain ⟨other, hother, rfl⟩ := List.mem_map.mp hpatch
          exact loaded_of_apart _ (hcross other hother piece hmem).symm hk

theorem serve_queue {requests : List Request} {ram : Ram} {memory : Cells}
    (hagree : Agree (requests.flatMap Request.pieces) ram.memory memory)
    (hapart : (requests.flatMap Request.pieces).Pairwise fun a b => a.bvec.Apart b.bvec) :
    (requests.foldl Ram.serve ram).data =
      Patch.applyAll (requests.flatMap (Request.stores memory)) ram.data ∧
    ram.completions requests = expected memory ram.data requests := by
  induction requests generalizing ram with
  | nil => exact ⟨rfl, rfl⟩
  | cons req rest ih =>
      rw [List.flatMap_cons] at hagree hapart
      obtain ⟨hdata, hlog, hlater⟩ := req.serve_spec hagree hapart
      obtain ⟨hdata', hlog'⟩ := ih hlater (List.pairwise_append.mp hapart).2.1
      refine ⟨?_, ?_⟩
      · rw [List.foldl_cons, hdata', hdata, List.flatMap_cons, Patch.applyAll_append]
      · rw [Ram.completions, expected, hlog, hlog', hdata]

theorem segments_pairwise {requests : List Request}
    (hapart : (requests.flatMap Request.segments).Pairwise BioVec.Apart) :
    (requests.flatMap Request.pieces).Pairwise fun a b => a.bvec.Apart b.bvec := by
  rw [← List.pairwise_map, List.map_flatMap]
  simpa only [pieces_bvec] using hapart

theorem stores_of_outside {requests : List Request} (memory : Cells) {i : Nat}
    (h : ∀ req ∈ requests, req.dir = .write → ∀ piece ∈ req.pieces,
      i < piece.position ∨ piece.position + piece.bvec.bvLen.toNat ≤ i) :
    ∀ patch ∈ requests.flatMap (Request.stores memory), patch i = none := by
  intro patch hpatch
  obtain ⟨req, hreq, hmem⟩ := List.mem_flatMap.mp hpatch
  cases hdir : req.dir with
  | read =>
      simp only [Request.stores, hdir, List.not_mem_nil] at hmem
  | write =>
      simp only [Request.stores, hdir] at hmem
      obtain ⟨piece, hpiece, rfl⟩ := List.mem_map.mp hmem
      have hout := h req hreq hdir piece hpiece
      exact if_neg (by omega)

theorem fsdsk_request_data_law (layer : BlockLayer) (requests : List Request) (ram : Ram)
    (hfits : ∀ req ∈ requests, req.Fits)
    (hapart : (requests.flatMap Request.segments).Pairwise BioVec.Apart) :
    ∃ passes final,
      (∀ fuel, fsdskRequest layer (passes + fuel) requests ram = some (.ok final)) ∧
      final.ram.data =
        Patch.applyAll (requests.flatMap (Request.stores ram.memory)) ram.data ∧
      final.log = expected ram.memory ram.data requests ∧
      ∀ i, (∀ req ∈ requests, req.dir = .write → ∀ piece ∈ req.pieces,
          i < piece.position ∨ piece.position + piece.bvec.bvLen.toNat ≤ i) →
        final.ram.data i = ram.data i := by
  obtain ⟨passes, hrun⟩ := fsdskRequest_eq layer hfits ram
  have hself : Agree (requests.flatMap Request.pieces) ram.memory ram.memory :=
    fun _ _ _ _ => rfl
  obtain ⟨hdata, hlog⟩ := serve_queue hself (segments_pairwise hapart)
  refine ⟨passes, _, hrun, hdata, hlog, fun i hout => ?_⟩
  rw [hdata]
  exact Patch.applyAll_of_none (stores_of_outside ram.memory hout) _

/-! ## A block layer and two requests -/

def kernelLayer : BlockLayer where
  blkEndRequestCur req _ := (req.afterCurrent.bios ≠ [], req.afterCurrent)
  more_iff req _ := by simp
  advances _ _ _ := rfl

/-- Two sectors are written from one page, then the second is read into another. -/
def writeThenRead : List Request :=
  [⟨.write, [⟨0, [⟨0, 512, 0⟩, ⟨0, 512, 512⟩]⟩]⟩, ⟨.read, [⟨1, [⟨1, 512, 0⟩]⟩]⟩]

def twoSectors : Ram := ⟨fun _ => 0, fun i => if i < 512 then 1 else 2⟩

theorem writeThenRead_served :
    ∃ passes final,
      (∀ fuel, fsdskRequest kernelLayer (passes + fuel) writeThenRead twoSectors =
        some (.ok final)) ∧
      final.log =
        [⟨.write, 0, ⟨0, 512, 0⟩, 0, List.replicate 512 1⟩,
          ⟨.write, 512, ⟨0, 512, 512⟩, 0, List.replicate 512 2⟩,
          ⟨.read, 512, ⟨1, 512, 0⟩, 0, List.replicate 512 2⟩] := by
  obtain ⟨passes, final, hrun, -, hlog, -⟩ := fsdsk_request_data_law kernelLayer
    writeThenRead twoSectors (by decide +kernel) (by decide +kernel)
  exact ⟨passes, final, hrun, hlog.trans (by decide +kernel)⟩

end FarsightDriver.RamDisk
