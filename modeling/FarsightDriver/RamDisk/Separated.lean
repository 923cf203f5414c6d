import FarsightDriver.RamDisk.DataLaw

/-!
# Requests that go beyond the disk

A pass ends with one status for all bios it has visited, and that status goes to
the first segment that is not completed.  Every segment gets the status of its
own bio when the bios beyond the disk come first and are refused.
-/

namespace FarsightDriver.RamDisk

open FarsightDriver.Foundation

def Bio.ownStatus (bio : Bio) : Int := if bio.Inside then 0 else -eio

def Completion.outcome (completion : Completion) : BioVec × Int :=
  (completion.bvec, completion.status)

def Bio.outcomes (bio : Bio) : List (BioVec × Int) :=
  bio.segments.map fun bvec => (bvec, bio.ownStatus)

def Request.outcomes (req : Request) : List (BioVec × Int) := req.bios.flatMap Bio.outcomes

/-- The copies of the bios on the disk. -/
def Request.insideCopies (req : Request) : List Piece :=
  (req.bios.filter fun bio => bio.Inside).flatMap Bio.copies

def Ram.serveInside (ram : Ram) (req : Request) : Ram := ram.transfer req.dir req.insideCopies

/--
Every segment is completed with the status of its own bio, and nothing else is
copied than the bios on the disk.
-/
def OwnStatuses (layer : BlockLayer) (requests : List Request) : Prop :=
  ∀ ram, ∃ passes final,
    (∀ fuel, fsdskRequest layer (passes + fuel) requests ram = some (.ok final)) ∧
    final.log.map Completion.outcome = requests.flatMap Request.outcomes ∧
    final.ram = requests.foldl Ram.serveInside ram

/-- The bio is refused, and so is whatever is left of it. -/
def StaysOut : SectorT → List BioVec → Prop
  | _, [] => True
  | sector, bvec :: rest =>
      ¬ Bio.Accepted ⟨sector, bvec :: rest⟩ ∧
        StaysOut (sector + (bvec.bvLen >>> 9).setWidth 64) rest

instance StaysOut.decidable : (sector : SectorT) → (segments : List BioVec) →
    Decidable (StaysOut sector segments)
  | _, [] => .isTrue trivial
  | sector, bvec :: rest =>
      have : Decidable (StaysOut (sector + (bvec.bvLen >>> 9).setWidth 64) rest) :=
        StaysOut.decidable _ rest
      inferInstanceAs (Decidable (_ ∧ _))

/-- The bios beyond the disk come first, and the driver's test refuses them. -/
structure Separated (bios : List Bio) : Prop where
  order : bios.Pairwise fun front back => front.Inside → back.Inside
  out : ∀ bio ∈ bios, ¬ bio.Inside → StaysOut bio.biSector bio.segments

instance (bios : List Bio) : Decidable (Separated bios) :=
  decidable_of_iff
    ((bios.Pairwise fun front back => front.Inside → back.Inside) ∧
      ∀ bio ∈ bios, ¬ bio.Inside → StaysOut bio.biSector bio.segments)
    ⟨fun h => ⟨h.1, h.2⟩, fun h => ⟨h.order, h.out⟩⟩

/-! ## What is left of a bio -/

/-- The bio without its first segment is on the disk when the bio is. -/
theorem inside_advance_iff {sector : SectorT} {bvec next : BioVec} {rest : List BioVec}
    (h : ¬ Bio.Inside ⟨sector, bvec :: next :: rest⟩ →
      StaysOut sector (bvec :: next :: rest)) :
    Bio.Inside ⟨sector + (bvec.bvLen >>> 9).setWidth 64, next :: rest⟩ ↔
      Bio.Inside ⟨sector, bvec :: next :: rest⟩ := by
  refine ⟨fun hrest => ?_, fun hinside => hinside.advance⟩
  by_contra hout
  obtain ⟨-, hrefused, -⟩ := h hout
  exact hrefused hrest.accepted

theorem refused_of_empty {sector : SectorT} (h : ¬ Bio.Inside ⟨sector, []⟩) :
    ¬ Bio.Accepted ⟨sector, []⟩ := by
  have hcap : getCapacity.toNat = 16384 := by decide
  have hend : bioEndSector ⟨sector, []⟩ = sector := by simp [bioEndSector, Bio.biSize]
  rw [inside_iff, fsdskSize_eq, fsdskSectorSize, show bytesOf [] = 0 from rfl] at h
  rw [Bio.Accepted, not_not, hend, BitVec.lt_def, hcap]
  omega

theorem Separated.refused {bio : Bio} {rest : List Bio} (h : Separated (bio :: rest))
    (hout : ¬ bio.Inside) : ¬ bio.Accepted := by
  obtain ⟨sector, segments⟩ := bio
  cases segments with
  | nil => exact refused_of_empty hout
  | cons bvec segments => exact (h.out _ List.mem_cons_self hout).1

theorem Separated.tail {bio : Bio} {rest : List Bio} (h : Separated (bio :: rest)) :
    Separated rest :=
  ⟨(List.pairwise_cons.mp h.order).2, fun other hmem => h.out other (List.mem_cons_of_mem _ hmem)⟩

theorem Separated.advance {sector : SectorT} {bvec next : BioVec} {rest : List BioVec}
    {bios : List Bio} (h : Separated (⟨sector, bvec :: next :: rest⟩ :: bios)) :
    Separated (⟨sector + (bvec.bvLen >>> 9).setWidth 64, next :: rest⟩ :: bios) := by
  have hfirst := h.out _ List.mem_cons_self
  obtain ⟨hcross, htail⟩ := List.pairwise_cons.mp h.order
  refine ⟨List.pairwise_cons.mpr ⟨fun other hmem hinside => ?_, htail⟩, ?_⟩
  · exact hcross other hmem ((inside_advance_iff hfirst).mp hinside)
  · intro bio hmem hout
    rcases List.mem_cons.mp hmem with rfl | hrest
    · exact (hfirst fun hinside => hout hinside.advance).2
    · exact h.out bio (List.mem_cons_of_mem _ hrest) hout

/-! ## Passes and runs -/

theorem ownStatus_congr {bio bio' : Bio} (h : bio.Inside ↔ bio'.Inside) :
    bio.ownStatus = bio'.ownStatus := by
  simp only [Bio.ownStatus, h]

theorem Separated.all_inside {bio : Bio} {rest : List Bio} (h : Separated (bio :: rest))
    (hinside : bio.Inside) : ∀ other ∈ bio :: rest, other.Inside := by
  intro other hmem
  rcases List.mem_cons.mp hmem with rfl | hrest
  · exact hinside
  · exact (List.pairwise_cons.mp h.order).1 other hrest hinside

theorem forEachBio_outside (dir : Direction) {bio : Bio} {rest : List Bio}
    (h : ¬ bio.Accepted) (status : Int) (ram : Ram) :
    forEachBio dir (bio :: rest) status ram = .ok (-eio, ram.transfer dir []) := by
  rw [transfer_nil, forEachBio, if_pos (not_not.mp h)]

theorem afterCurrent_empty (dir : Direction) (sector : SectorT) (bios : List Bio) :
    Request.afterCurrent ⟨dir, ⟨sector, []⟩ :: bios⟩ = ⟨dir, bios⟩ := rfl

theorem afterCurrent_last (dir : Direction) (sector : SectorT) (bvec : BioVec)
    (bios : List Bio) :
    Request.afterCurrent ⟨dir, ⟨sector, [bvec]⟩ :: bios⟩ = ⟨dir, bios⟩ := rfl

theorem afterCurrent_more (dir : Direction) (sector : SectorT) (bvec next : BioVec)
    (rest : List BioVec) (bios : List Bio) :
    Request.afterCurrent ⟨dir, ⟨sector, bvec :: next :: rest⟩ :: bios⟩ =
      ⟨dir, ⟨sector + (bvec.bvLen >>> 9).setWidth 64, next :: rest⟩ :: bios⟩ := rfl

theorem separated_afterCurrent {dir : Direction} {bio : Bio} {bios : List Bio}
    (h : Separated (bio :: bios)) :
    Separated (Request.afterCurrent ⟨dir, bio :: bios⟩).bios := by
  obtain ⟨sector, segments⟩ := bio
  match segments with
  | [] => exact h.tail
  | [bvec] => exact h.tail
  | bvec :: next :: rest => exact h.advance

theorem outcomes_cons (dir : Direction) (bio : Bio) (bios : List Bio) :
    Request.outcomes ⟨dir, bio :: bios⟩ = bio.outcomes ++ Request.outcomes ⟨dir, bios⟩ := rfl

/-- The pass completes the first segment with the status of its own bio. -/
theorem outcomes_afterCurrent (dir : Direction) {bio : Bio} (bios : List Bio)
    (h : ¬ bio.Inside → StaysOut bio.biSector bio.segments) (memory : Cells) :
    Request.outcomes ⟨dir, bio :: bios⟩ =
      (Request.completion ⟨dir, bio :: bios⟩ bio.ownStatus memory).map Completion.outcome ++
        (Request.afterCurrent ⟨dir, bio :: bios⟩).outcomes := by
  obtain ⟨sector, segments⟩ := bio
  rcases segments with _ | ⟨bvec, _ | ⟨next, rest⟩⟩
  · rfl
  · rfl
  · have hown := ownStatus_congr (inside_advance_iff h)
    rw [afterCurrent_more, outcomes_cons, outcomes_cons, Bio.outcomes, Bio.outcomes, hown]
    rfl

theorem insideCopies_inside {bio : Bio} (h : bio.Inside) (dir : Direction) (bios : List Bio) :
    Request.insideCopies ⟨dir, bio :: bios⟩ = bio.copies ++ Request.insideCopies ⟨dir, bios⟩ := by
  simp [Request.insideCopies, h]

theorem insideCopies_outside {bio : Bio} (h : ¬ bio.Inside) (dir : Direction)
    (bios : List Bio) :
    Request.insideCopies ⟨dir, bio :: bios⟩ = Request.insideCopies ⟨dir, bios⟩ := by
  simp [Request.insideCopies, h]

theorem insideCopies_of_all {dir : Direction} {bios : List Bio} (h : ∀ bio ∈ bios, bio.Inside) :
    Request.insideCopies ⟨dir, bios⟩ = bios.flatMap Bio.copies := by
  rw [Request.insideCopies, List.filter_eq_self.mpr fun bio hmem => decide_eq_true (h bio hmem)]

/-- What a pass over bios on the disk leaves to copy, it has copied already. -/
theorem insideCopies_suffix (dir : Direction) {bio : Bio} (bios : List Bio) (h : bio.Inside) :
    ∃ front, Request.insideCopies ⟨dir, bio :: bios⟩ =
      front ++ (Request.afterCurrent ⟨dir, bio :: bios⟩).insideCopies := by
  obtain ⟨sector, segments⟩ := bio
  rcases segments with _ | ⟨bvec, _ | ⟨next, rest⟩⟩
  · rw [afterCurrent_empty, insideCopies_inside h]
    exact ⟨_, rfl⟩
  · rw [afterCurrent_last, insideCopies_inside h]
    exact ⟨_, rfl⟩
  · refine ⟨[⟨sector.toNat * fsdskSectorSize, bvec⟩], ?_⟩
    rw [afterCurrent_more, insideCopies_inside h, insideCopies_inside h.advance, copies_advance h]
    rfl

theorem insideCopies_refused {dir : Direction} {bio : Bio} {bios : List Bio}
    (h : Separated (bio :: bios)) (hout : ¬ bio.Inside) :
    (Request.afterCurrent ⟨dir, bio :: bios⟩).insideCopies =
      Request.insideCopies ⟨dir, bio :: bios⟩ := by
  rw [insideCopies_outside hout]
  obtain ⟨sector, segments⟩ := bio
  rcases segments with _ | ⟨bvec, _ | ⟨next, rest⟩⟩
  · rw [afterCurrent_empty]
  · rw [afterCurrent_last]
  · have hrest := (inside_advance_iff (h.out _ List.mem_cons_self)).not.mpr hout
    rw [afterCurrent_more, insideCopies_outside hrest]

/-- One pass: the status of the first bio, and copies that leave the rest of the work as it was. -/
theorem Separated.pass {dir : Direction} {bio : Bio} {bios : List Bio}
    (h : Separated (bio :: bios)) (status : Int) (ram : Ram) :
    ∃ pieces, forEachBio dir (bio :: bios) status ram =
        .ok (bio.ownStatus, ram.transfer dir pieces) ∧
      (ram.transfer dir pieces).serveInside (Request.afterCurrent ⟨dir, bio :: bios⟩) =
        ram.serveInside ⟨dir, bio :: bios⟩ := by
  by_cases hinside : bio.Inside
  · have hall := h.all_inside hinside
    obtain ⟨front, hfront⟩ := insideCopies_suffix dir bios hinside
    refine ⟨Request.insideCopies ⟨dir, bio :: bios⟩, ?_, ?_⟩
    · rw [insideCopies_of_all hall, Bio.ownStatus, if_pos hinside]
      rw [forEachBio_status dir (List.cons_ne_nil _ _)]
      exact forEachBio_inside dir ram hall
    · rw [Ram.serveInside, Ram.serveInside, afterCurrent_dir, hfront]
      exact transfer_suffix dir _ _ ram
  · refine ⟨[], ?_, ?_⟩
    · rw [Bio.ownStatus, if_neg hinside]
      exact forEachBio_outside dir (h.refused hinside) status ram
    · rw [transfer_nil, Ram.serveInside, Ram.serveInside, afterCurrent_dir,
        insideCopies_refused h hinside]

theorem requestLoop_no_bios (layer : BlockLayer) (fuel : Nat) (dir : Direction) (run : Run) :
    requestLoop layer (fuel + 1) (some ⟨dir, []⟩) run =
      requestLoop layer fuel (blkFetchRequest run.queue).1 run.fetched := by
  have hpass : forEachBio dir [] run.status run.ram =
      .ok (run.status, run.ram.transfer dir []) := by
    rw [transfer_nil]
    rfl
  have hdone : (Request.afterCurrent ⟨dir, []⟩).bios = [] := rfl
  have hsame : run.passed ⟨dir, []⟩ [] run.status = run := by
    simp [Run.passed, Request.completion, Request.current]
  rw [@requestLoop_passed layer ⟨dir, []⟩ run [] run.status hpass, if_pos hdone, hsame]

theorem goes_separated (layer : BlockLayer) {req : Request} (h : Separated req.bios) (run : Run) :
    ∃ done, Goes layer (some req) run (blkFetchRequest run.queue).1 (Run.fetched done) ∧
      done.queue = run.queue ∧ done.ram = run.ram.serveInside req ∧
      done.log.map Completion.outcome = run.log.map Completion.outcome ++ req.outcomes := by
  induction req using Request.pass_induction generalizing run with
  | pass req ih =>
      obtain ⟨dir, bios⟩ := req
      cases bios with
      | nil =>
          refine ⟨run, .step fun fuel => requestLoop_no_bios layer fuel dir run, rfl,
            (transfer_nil dir run.ram).symm, ?_⟩
          simp [Request.outcomes]
      | cons bio bios =>
          obtain ⟨pieces, hpass, hserve⟩ := h.pass run.status run.ram
          have hfirst := h.out bio List.mem_cons_self
          have hstep := @requestLoop_passed layer ⟨dir, bio :: bios⟩ run pieces bio.ownStatus hpass
          by_cases hdone : (Request.afterCurrent ⟨dir, bio :: bios⟩).bios = []
          · refine ⟨run.passed ⟨dir, bio :: bios⟩ pieces bio.ownStatus,
              .step fun fuel => by rw [hstep, if_pos hdone], rfl, ?_, ?_⟩
            · rw [← hserve, Ram.serveInside, Request.insideCopies, hdone]
              exact (transfer_nil _ _).symm
            · rw [outcomes_afterCurrent dir bios hfirst (run.ram.transfer dir pieces).memory,
                Request.outcomes, hdone]
              simp [Run.passed]
          · have hgoes : Goes layer (some ⟨dir, bio :: bios⟩) run
                (some (Request.afterCurrent ⟨dir, bio :: bios⟩))
                (run.passed ⟨dir, bio :: bios⟩ pieces bio.ownStatus) :=
              .step fun fuel => by rw [hstep, if_neg hdone]
            obtain ⟨done, hrest, hqueue, hram, hlog⟩ :=
              ih hdone (separated_afterCurrent h)
                (run.passed ⟨dir, bio :: bios⟩ pieces bio.ownStatus)
            refine ⟨done, hgoes.trans hrest, hqueue, hram.trans hserve, ?_⟩
            rw [hlog, outcomes_afterCurrent dir bios hfirst (run.ram.transfer dir pieces).memory]
            simp [Run.passed]

theorem goes_separated_queue (layer : BlockLayer) {queue : List Request}
    (h : ∀ req ∈ queue, Separated req.bios) {run : Run} (hqueue : run.queue = queue) :
    ∃ final, Goes layer (blkFetchRequest queue).1 run.fetched none final ∧
      final.log.map Completion.outcome =
        run.log.map Completion.outcome ++ queue.flatMap Request.outcomes ∧
      final.ram = queue.foldl Ram.serveInside run.ram := by
  induction queue generalizing run with
  | nil => exact ⟨run.fetched, .refl, (List.append_nil _).symm, rfl⟩
  | cons req rest ih =>
      have hrest : run.fetched.queue = rest := by
        rw [Run.fetched, hqueue]
        rfl
      obtain ⟨done, hgoes, hdone, hram, hlog⟩ :=
        goes_separated layer (h req List.mem_cons_self) run.fetched
      rw [hrest] at hgoes
      obtain ⟨final, hgoes', hlog', hram'⟩ :=
        ih (fun other hmem => h other (List.mem_cons_of_mem _ hmem)) (hdone.trans hrest)
      refine ⟨final, hgoes.trans hgoes', ?_, ?_⟩
      · rw [hlog', hlog, List.flatMap_cons, List.append_assoc]
        rfl
      · rw [hram', hram]
        rfl

theorem ownStatuses_of_separated (layer : BlockLayer) {requests : List Request}
    (h : ∀ req ∈ requests, Separated req.bios) : OwnStatuses layer requests := by
  intro ram
  have hqueue : (⟨ram, requests, 0, []⟩ : Run).queue = requests := rfl
  obtain ⟨final, hgoes, hlog, hram⟩ := goes_separated_queue layer h hqueue
  obtain ⟨passes, hloop⟩ := hgoes.ends
  exact ⟨passes, final, hloop, hlog, hram⟩

end FarsightDriver.RamDisk
