import FarsightDriver.RamDisk.Bounds

/-!
# The request loop ends

Every pass completes a segment or drops an empty bio, whether it has copied or
not, so the loop ends.  It ends with the queue served unless a copy leaves the
array, and that is a matter of the bios alone: each of them, and whatever is left
of it after some segments, is at some pass the first bio of its request.
-/

namespace FarsightDriver.RamDisk

open FarsightDriver.Foundation

/-- Whatever is left of the bio stays in bounds when the test lets it through. -/
def Guarded : SectorT → List BioVec → Prop
  | _, [] => True
  | sector, bvec :: rest =>
      (Bio.Accepted ⟨sector, bvec :: rest⟩ → Bio.HasRoom ⟨sector, bvec :: rest⟩) ∧
        Guarded (sector + (bvec.bvLen >>> 9).setWidth 64) rest

instance Guarded.decidable : (sector : SectorT) → (segments : List BioVec) →
    Decidable (Guarded sector segments)
  | _, [] => .isTrue trivial
  | sector, bvec :: rest =>
      have : Decidable (Guarded (sector + (bvec.bvLen >>> 9).setWidth 64) rest) :=
        Guarded.decidable _ rest
      inferInstanceAs (Decidable (_ ∧ _))

def Request.Guarded (req : Request) : Prop :=
  ∀ bio ∈ req.bios, RamDisk.Guarded bio.biSector bio.segments

instance (req : Request) : Decidable req.Guarded :=
  inferInstanceAs (Decidable (∀ bio ∈ req.bios, RamDisk.Guarded bio.biSector bio.segments))

/-- The loop ends with the queue empty, and each segment is completed once, in order. -/
def Serves (layer : BlockLayer) (requests : List Request) (ram : Ram) : Prop :=
  ∃ passes final,
    (∀ fuel, fsdskRequest layer (passes + fuel) requests ram = some (.ok final)) ∧
    final.queue = [] ∧
    final.log.map Completion.bvec = requests.flatMap Request.segments

/-! ## One pass -/

theorem hasRoom_of_guarded {bio : Bio} (h : Guarded bio.biSector bio.segments)
    (haccepted : bio.Accepted) : bio.HasRoom := by
  obtain ⟨sector, segments⟩ := bio
  cases segments with
  | nil => exact .inl rfl
  | cons bvec rest => exact h.1 haccepted

theorem forEachBio_ok_iff (dir : Direction) {bios : List Bio} (status : Int) (ram : Ram)
    (hpos : ∀ bio ∈ bios, ∀ bvec ∈ bio.segments, 0 < bvec.bvLen.toNat) :
    (∃ result, forEachBio dir bios status ram = .ok result) ↔
      ∀ bio ∈ visited bios, bio.HasRoom := by
  induction bios generalizing status ram with
  | nil => simp [forEachBio, visited]
  | cons bio rest ih =>
      obtain ⟨hfirst, hothers⟩ := List.forall_mem_cons.mp hpos
      by_cases hbio : bio.Accepted
      · have hvisited : visited (bio :: rest) = bio :: visited rest := by
          simp [visited, hbio]
        have hbounds : (∃ ram', copySegments dir bio.biSector bio.segments ram = .ok ram') ↔
            bio.HasRoom := (copySegments_ok_iff dir ram hfirst).trans inBounds_iff_hasRoom
        rw [hvisited, List.forall_mem_cons]
        cases hcopy : copySegments dir bio.biSector bio.segments ram with
        | error fault =>
            have hroom : ¬ bio.HasRoom := fun hroom => by
              obtain ⟨ram', hok⟩ := hbounds.mpr hroom
              rw [hcopy] at hok
              cases hok
            simp only [forEachBio, if_neg hbio, hcopy, bind, Except.bind, hroom, false_and,
              reduceCtorEq, exists_false]
        | ok ram' =>
            have hroom : bio.HasRoom := hbounds.mp ⟨ram', hcopy⟩
            simp only [forEachBio, if_neg hbio, hcopy, bind, Except.bind]
            rw [ih 0 ram' hothers]
            exact (and_iff_right hroom).symm
      · have hvisited : visited (bio :: rest) = [] := by
          simp [visited, hbio]
        rw [hvisited, forEachBio, if_pos (not_not.mp hbio)]
        exact ⟨fun _ _ hmem => absurd hmem List.not_mem_nil, fun _ => ⟨_, rfl⟩⟩

theorem visited_hasRoom {req : Request} (h : req.Guarded) :
    ∀ bio ∈ visited req.bios, bio.HasRoom := by
  intro bio hmem
  have haccepted := List.mem_takeWhile_imp hmem
  exact hasRoom_of_guarded (h bio ((List.takeWhile_sublist _).subset hmem))
    (of_decide_eq_true haccepted)

theorem guarded_afterCurrent {dir : Direction} {bio : Bio} {bios : List Bio}
    (h : bio.Accepted → bio.HasRoom) :
    Request.Guarded ⟨dir, bio :: bios⟩ ↔ (Request.afterCurrent ⟨dir, bio :: bios⟩).Guarded := by
  obtain ⟨sector, segments⟩ := bio
  rcases segments with _ | ⟨bvec, _ | ⟨next, rest⟩⟩
  · rw [afterCurrent_empty, Request.Guarded, List.forall_mem_cons]
    exact and_iff_right trivial
  · rw [afterCurrent_last, Request.Guarded, List.forall_mem_cons]
    exact and_iff_right ⟨h, trivial⟩
  · rw [afterCurrent_more, Request.Guarded, Request.Guarded, List.forall_mem_cons,
      List.forall_mem_cons]
    exact and_congr_left' (and_iff_right h)

/-- A pass completes the first segment of the request, and nothing of an empty bio. -/
theorem segments_afterCurrent (dir : Direction) (bio : Bio) (bios : List Bio) (status : Int)
    (memory : Cells) :
    Request.segments ⟨dir, bio :: bios⟩ =
      (Request.completion ⟨dir, bio :: bios⟩ status memory).map Completion.bvec ++
        (Request.afterCurrent ⟨dir, bio :: bios⟩).segments := by
  obtain ⟨sector, segments⟩ := bio
  rcases segments with _ | ⟨bvec, _ | ⟨next, rest⟩⟩ <;> rfl

theorem pos_afterCurrent {dir : Direction} {bio : Bio} {bios : List Bio}
    (h : ∀ bvec ∈ Request.segments ⟨dir, bio :: bios⟩, 0 < bvec.bvLen.toNat) :
    ∀ bvec ∈ (Request.afterCurrent ⟨dir, bio :: bios⟩).segments, 0 < bvec.bvLen.toNat := by
  intro bvec hmem
  rw [segments_afterCurrent dir bio bios 0 fun _ => 0] at h
  exact h bvec (List.mem_append_right _ hmem)

/-- A pass leaves the array, or goes on to what is left of the request. -/
theorem requestLoop_goes (layer : BlockLayer) {dir : Direction} {bio : Bio} {bios : List Bio}
    (hpos : ∀ bvec ∈ Request.segments ⟨dir, bio :: bios⟩, 0 < bvec.bvLen.toNat) (run : Run) :
    (¬ Request.Guarded ⟨dir, bio :: bios⟩ ∧ Faults layer (some ⟨dir, bio :: bios⟩) run) ∨
    ∃ next : Run,
      (Request.Guarded ⟨dir, bio :: bios⟩ ↔
        (Request.afterCurrent ⟨dir, bio :: bios⟩).Guarded) ∧
      next.queue = run.queue ∧
      next.log.map Completion.bvec ++ (Request.afterCurrent ⟨dir, bio :: bios⟩).segments =
        run.log.map Completion.bvec ++ Request.segments ⟨dir, bio :: bios⟩ ∧
      ∀ fuel, requestLoop layer (fuel + 1) (some ⟨dir, bio :: bios⟩) run =
        if (Request.afterCurrent ⟨dir, bio :: bios⟩).bios = [] then
          requestLoop layer fuel (blkFetchRequest run.queue).1 next.fetched
        else requestLoop layer fuel (some (Request.afterCurrent ⟨dir, bio :: bios⟩)) next := by
  have hlen : ∀ other ∈ bio :: bios, ∀ bvec ∈ other.segments, 0 < bvec.bvLen.toNat :=
    fun other hother bvec hbvec => hpos bvec (List.mem_flatMap.mpr ⟨other, hother, hbvec⟩)
  have hok := forEachBio_ok_iff dir run.status run.ram hlen
  cases hpass : forEachBio dir (bio :: bios) run.status run.ram with
  | error fault =>
      refine .inl ⟨fun hguarded => ?_, .step (requestLoop_error layer hpass)⟩
      obtain ⟨result, hresult⟩ := hok.mpr (visited_hasRoom hguarded)
      rw [hpass] at hresult
      cases hresult
  | ok result =>
      obtain ⟨status, ram⟩ := result
      have hroom : bio.Accepted → bio.HasRoom := fun haccepted =>
        hok.mp ⟨_, hpass⟩ bio (mem_visited haccepted)
      refine .inr ⟨run.after ⟨dir, bio :: bios⟩ status ram, guarded_afterCurrent hroom, rfl, ?_,
        @requestLoop_ok layer ⟨dir, bio :: bios⟩ run status ram hpass⟩
      rw [segments_afterCurrent dir bio bios status ram.memory, Run.after, List.map_append,
        List.append_assoc]

/-! ## The passes over one request and over a queue -/

/-- The loop goes through the request, or leaves the array on the way. -/
theorem request_goes_or_faults (layer : BlockLayer) {req : Request}
    (hpos : ∀ bvec ∈ req.segments, 0 < bvec.bvLen.toNat) (run : Run) :
    (req.Guarded ∧ ∃ done,
      Goes layer (some req) run (blkFetchRequest run.queue).1 (Run.fetched done) ∧
      done.queue = run.queue ∧
      done.log.map Completion.bvec = run.log.map Completion.bvec ++ req.segments) ∨
    (¬ req.Guarded ∧ Faults layer (some req) run) := by
  induction req using Request.pass_induction generalizing run with
  | pass req ih =>
      obtain ⟨dir, bios⟩ := req
      cases bios with
      | nil =>
          exact .inl ⟨fun _ hmem => absurd hmem List.not_mem_nil, run,
            .step fun fuel => requestLoop_no_bios layer fuel dir run, rfl,
            (List.append_nil _).symm⟩
      | cons bio bios =>
          rcases requestLoop_goes layer hpos run with
            hfault | ⟨next, hguarded, hqueue, hlog, hloop⟩
          · exact .inr hfault
          rw [hguarded, ← hlog, ← hqueue]
          rw [← hqueue] at hloop
          by_cases hdone : (Request.afterCurrent ⟨dir, bio :: bios⟩).bios = []
          · rw [Request.Guarded, Request.segments, hdone]
            exact .inl ⟨fun _ hmem => absurd hmem List.not_mem_nil, next,
              .step fun fuel => by rw [hloop, if_pos hdone], rfl, (List.append_nil _).symm⟩
          · have hgoes : Goes layer (some ⟨dir, bio :: bios⟩) run
                (some (Request.afterCurrent ⟨dir, bio :: bios⟩)) next :=
              .step fun fuel => by rw [hloop, if_neg hdone]
            rcases ih hdone (pos_afterCurrent hpos) next with
              ⟨hrest, done, hserved, hsame, hlog'⟩ | ⟨hnot, hfault⟩
            · exact .inl ⟨hrest, done, hgoes.trans hserved, hsame, hlog'⟩
            · exact .inr ⟨hnot, hgoes.faults hfault⟩

theorem queue_goes_or_faults (layer : BlockLayer) {queue : List Request}
    (hpos : ∀ req ∈ queue, ∀ bvec ∈ req.segments, 0 < bvec.bvLen.toNat) {run : Run}
    (hqueue : run.queue = queue) :
    ((∀ req ∈ queue, req.Guarded) ∧ ∃ final,
      Goes layer (blkFetchRequest queue).1 run.fetched none final ∧
      final.queue = [] ∧
      final.log.map Completion.bvec =
        run.log.map Completion.bvec ++ queue.flatMap Request.segments) ∨
    ((¬ ∀ req ∈ queue, req.Guarded) ∧
      Faults layer (blkFetchRequest queue).1 run.fetched) := by
  induction queue generalizing run with
  | nil =>
      refine .inl ⟨fun _ hmem => absurd hmem List.not_mem_nil, run.fetched, .refl, ?_,
        (List.append_nil _).symm⟩
      rw [Run.fetched, hqueue]
      rfl
  | cons req rest ih =>
      have hrest : run.fetched.queue = rest := by
        rw [Run.fetched, hqueue]
        rfl
      obtain ⟨hfirst, hothers⟩ := List.forall_mem_cons.mp hpos
      rw [List.forall_mem_cons]
      rcases request_goes_or_faults layer hfirst run.fetched with
        ⟨hguarded, done, hgoes, hdone, hlog⟩ | ⟨hnot, hfault⟩
      · rw [hrest] at hgoes
        rcases ih hothers (hdone.trans hrest) with
          ⟨hall, final, hgoes', hempty, hlog'⟩ | ⟨hnot, hfault⟩
        · refine .inl ⟨⟨hguarded, hall⟩, final, hgoes.trans hgoes', hempty, ?_⟩
          rw [hlog', hlog, List.flatMap_cons, List.append_assoc]
          rfl
        · exact .inr ⟨fun h => hnot h.2, hgoes.faults hfault⟩
      · exact .inr ⟨fun h => hnot h.1, hfault⟩

/-! ## Bios of whole sectors -/

theorem hasRoom_iff_inside {bio : Bio} (hformed : bio.Formed) (haccepted : bio.Accepted) :
    bio.HasRoom ↔ bio.Inside := by
  refine ⟨fun hroom => ?_, fun hinside => ?_⟩
  · have hend := endsAsCounted_of_hasRoom haccepted hformed.whole hroom
    obtain ⟨sectors, hsectors⟩ := bytesOf_whole hformed.whole
    rw [accepted_iff, hend] at haccepted
    rw [Bio.Inside, fsdskSize_eq]
    rw [fsdskSectorSize, show fsdskSectorTotal = 16384 from rfl] at *
    omega
  · have hreach := reach_le bio.segments
    rw [Bio.Inside, fsdskSize_eq] at hinside
    rw [Bio.HasRoom, fsdskOffsetSectors]
    rw [fsdskSectorSize, show fsdskSectorTotal = 16384 from rfl] at *
    omega

/-- What is left of a bio of whole sectors is on the disk when the bio is. -/
theorem guarded_iff_inside {sector : SectorT} {segments : List BioVec}
    (h : Bio.Formed ⟨sector, segments⟩) :
    Guarded sector segments ↔
      (Bio.Accepted ⟨sector, segments⟩ → Bio.Inside ⟨sector, segments⟩) := by
  induction segments generalizing sector with
  | nil => exact absurd rfl h.nonempty
  | cons bvec rest ih =>
      have hfirst : (Bio.Accepted ⟨sector, bvec :: rest⟩ → Bio.HasRoom ⟨sector, bvec :: rest⟩) ↔
          (Bio.Accepted ⟨sector, bvec :: rest⟩ → Bio.Inside ⟨sector, bvec :: rest⟩) :=
        forall_congr' fun haccepted => hasRoom_iff_inside h haccepted
      rw [Guarded, hfirst]
      refine and_iff_left_of_imp fun hinside => ?_
      cases rest with
      | nil => trivial
      | cons next rest =>
          exact (ih h.advance).mpr fun haccepted =>
            (hinside ((accepted_advance h.whole h.counted).mp haccepted)).advance

theorem serves_iff_guarded (layer : BlockLayer) (requests : List Request) (ram : Ram)
    (hpos : ∀ req ∈ requests, ∀ bvec ∈ req.segments, 0 < bvec.bvLen.toNat) :
    (∃ passes result, ∀ fuel,
      fsdskRequest layer (passes + fuel) requests ram = some result) ∧
    (Serves layer requests ram ↔ ∀ req ∈ requests, req.Guarded) := by
  have hqueue : (⟨ram, requests, 0, []⟩ : Run).queue = requests := rfl
  rcases queue_goes_or_faults layer hpos hqueue with
    ⟨hguarded, final, hgoes, hempty, hlog⟩ | ⟨hnot, passes, fault, hloop⟩
  · obtain ⟨passes, hloop⟩ := hgoes.ends
    exact ⟨⟨passes, .ok final, hloop⟩, fun _ => hguarded,
      fun _ => ⟨passes, final, hloop, hempty, hlog⟩⟩
  · refine ⟨⟨passes, .error fault, hloop⟩, fun hserves => ?_, fun h => absurd h hnot⟩
    obtain ⟨passes', final, hloop', -, -⟩ := hserves
    have hsame := (hloop passes').symm.trans (Nat.add_comm passes passes' ▸ hloop' passes)
    cases hsame

/--
The loop ends for every queue.  It ends with all of it completed, each segment once
and in order, when no bio, and nothing that is left of one, passes the test without
room in the array; for bios of whole sectors, when each is refused or on the disk.
-/
theorem fsdskRequest_ends (layer : BlockLayer) (requests : List Request) (ram : Ram)
    (hpos : ∀ req ∈ requests, ∀ bvec ∈ req.segments, 0 < bvec.bvLen.toNat) :
    (∃ passes result, ∀ fuel,
      fsdskRequest layer (passes + fuel) requests ram = some result) ∧
    (Serves layer requests ram ↔ ∀ req ∈ requests, req.Guarded) ∧
    ((∀ req ∈ requests, ∀ bio ∈ req.bios, bio.Formed) →
      (Serves layer requests ram ↔
        ∀ req ∈ requests, ∀ bio ∈ req.bios, bio.Accepted → bio.Inside)) := by
  obtain ⟨hends, hserves⟩ := serves_iff_guarded layer requests ram hpos
  refine ⟨hends, hserves, fun hformed => hserves.trans ?_⟩
  refine forall₂_congr fun req hreq => forall₂_congr fun bio hbio => ?_
  exact guarded_iff_inside (hformed req hreq bio hbio)

/-- The bio is refused, its neighbour is not looked at until it is gone. -/
def refusedThenWrapped : List Request :=
  [⟨.write, [⟨16384, [⟨0, 512, 0⟩]⟩, ⟨BitVec.allOnes 64, [⟨1, 512, 0⟩]⟩]⟩]

theorem refused_then_wrapped_faults :
    fsdskRequest kernelLayer 2 refusedThenWrapped twoSectors = some (.error .outOfBounds) ∧
      ¬ Serves kernelLayer refusedThenWrapped twoSectors := by
  refine ⟨rfl, fun h => ?_⟩
  have hpos : ∀ req ∈ refusedThenWrapped, ∀ bvec ∈ req.segments, 0 < bvec.bvLen.toNat := by decide
  exact absurd ((serves_iff_guarded kernelLayer _ twoSectors hpos).2.mp h) (by decide)

theorem beyond_before_inside_ends : Serves kernelLayer beyondBeforeInside twoSectors :=
  (fsdskRequest_ends kernelLayer beyondBeforeInside twoSectors (by decide)).2.1.mpr (by decide)

end FarsightDriver.RamDisk
