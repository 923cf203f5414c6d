import FarsightDriver.RamDisk.DataLaw

/-!
# The disk behind an elevator

The driver leaves the order of its requests to the I/O scheduler of the kernel.
Whatever a scheduler does that lets neighbours pass each other only when they
touch different sectors, or both read, and that merges neighbours of one
direction, is not seen: the array of the device and what every segment is
completed with stay the same.
-/

namespace FarsightDriver.RamDisk

open FarsightDriver.Foundation

def Piece.Off (left right : Piece) : Prop :=
  left.position + left.bvec.bvLen.toNat ≤ right.position ∨
    right.position + right.bvec.bvLen.toNat ≤ left.position

instance (left right : Piece) : Decidable (left.Off right) :=
  inferInstanceAs (Decidable (_ ∨ _))

def Request.Independent (left right : Request) : Prop :=
  (left.dir = .read ∧ right.dir = .read) ∨
    ∀ p ∈ left.pieces, ∀ q ∈ right.pieces, p.Off q

instance (left right : Request) : Decidable (left.Independent right) :=
  inferInstanceAs (Decidable (_ ∨ _))

/-- From the queue as it was filled to the queue as it is fetched. -/
inductive Elevator : List Request → List Request → Prop
  | refl (queue : List Request) : Elevator queue queue
  | cons (req : Request) {queue queue' : List Request} (h : Elevator queue queue') :
      Elevator (req :: queue) (req :: queue')
  | swap {left right : Request} (queue : List Request) (h : left.Independent right) :
      Elevator (left :: right :: queue) (right :: left :: queue)
  | merge (dir : Direction) (front back : List Bio) (queue : List Request) :
      Elevator (⟨dir, front⟩ :: ⟨dir, back⟩ :: queue) (⟨dir, front ++ back⟩ :: queue)
  | trans {queue queue' queue'' : List Request} (h : Elevator queue queue')
      (h' : Elevator queue' queue'') : Elevator queue queue''

theorem Piece.Off.symm {left right : Piece} (h : left.Off right) : right.Off left :=
  Or.symm h

theorem Request.Independent.symm {left right : Request} (h : left.Independent right) :
    right.Independent left := by
  rcases h with ⟨hleft, hright⟩ | hoff
  · exact .inl ⟨hright, hleft⟩
  · exact .inr fun q hq p hp => (hoff p hp q hq).symm

/-! ## Two requests -/

theorem stored_of_off {p q : Piece} (memory : Cells) (h : p.Off q) (i : Nat) :
    p.stored memory i = none ∨ q.stored memory i = none := by
  unfold Piece.Off at h
  by_cases hi : p.position ≤ i ∧ i < p.position + p.bvec.bvLen.toNat
  · exact .inr (if_neg (by omega))
  · exact .inl (if_neg hi)

theorem stores_comm {left right : Request} (h : left.Independent right) (memory disk : Cells) :
    Patch.applyAll (right.stores memory) (Patch.applyAll (left.stores memory) disk) =
      Patch.applyAll (left.stores memory) (Patch.applyAll (right.stores memory) disk) := by
  refine Patch.applyAll_comm (fun p hp q hq i => ?_) disk
  unfold Request.stores at hp hq
  cases hleft : left.dir with
  | read => simp [hleft] at hp
  | write =>
      cases hright : right.dir with
      | read => simp [hright] at hq
      | write =>
          simp only [hleft] at hp
          simp only [hright] at hq
          obtain ⟨a, ha, rfl⟩ := List.mem_map.mp hp
          obtain ⟨b, hb, rfl⟩ := List.mem_map.mp hq
          rcases h with ⟨hread, -⟩ | hoff
          · rw [hleft] at hread
            contradiction
          · exact stored_of_off memory (hoff a ha b hb) i

/-- What a request is completed with does not show the stores of one independent of it. -/
theorem expected_after {left right : Request} (h : left.Independent right)
    (memory disk : Cells) :
    right.pieces.map (Piece.expected right.dir memory
        (Patch.applyAll (left.stores memory) disk)) =
      right.pieces.map (Piece.expected right.dir memory disk) := by
  refine List.map_congr_left fun q hq => ?_
  cases hright : right.dir with
  | write => rfl
  | read =>
      cases hleft : left.dir with
      | read => simp only [Request.stores, hleft, Patch.applyAll_nil]
      | write =>
          have hoff : ∀ p ∈ left.pieces, p.Off q := by
            rcases h with ⟨hread, -⟩ | hoff
            · rw [hleft] at hread
              contradiction
            · exact fun p hp => hoff p hp q hq
          simp only [Piece.expected, Request.stores, hleft]
          congr 1
          refine bytesAt_congr fun k hk => Patch.applyAll_of_none (fun patch hpatch => ?_) disk
          obtain ⟨p, hp, rfl⟩ := List.mem_map.mp hpatch
          have happart := hoff p hp
          unfold Piece.Off at happart
          exact if_neg (by omega)

theorem pieces_append (dir : Direction) (front back : List Bio) :
    Request.pieces ⟨dir, front ++ back⟩ =
      Request.pieces ⟨dir, front⟩ ++ Request.pieces ⟨dir, back⟩ :=
  List.flatMap_append

theorem stores_append (memory : Cells) (dir : Direction) (front back : List Bio) :
    Request.stores memory ⟨dir, front ++ back⟩ =
      Request.stores memory ⟨dir, front⟩ ++ Request.stores memory ⟨dir, back⟩ := by
  cases dir with
  | read => rfl
  | write => simp only [Request.stores, pieces_append, List.map_append]

theorem expected_merge (memory disk : Cells) (dir : Direction) (front back : List Bio) :
    (Request.pieces ⟨dir, front ++ back⟩).map (Piece.expected dir memory disk) =
      (Request.pieces ⟨dir, front⟩).map (Piece.expected dir memory disk) ++
        (Request.pieces ⟨dir, back⟩).map (Piece.expected dir memory
          (Patch.applyAll (Request.stores memory ⟨dir, front⟩) disk)) := by
  rw [pieces_append, List.map_append]
  cases dir <;> rfl

/-! ## Whole queues -/

theorem Elevator.segments {queue queue' : List Request} (h : Elevator queue queue') :
    (queue'.flatMap Request.segments).Perm (queue.flatMap Request.segments) := by
  induction h with
  | refl => exact .refl _
  | cons req _ ih =>
      rw [List.flatMap_cons, List.flatMap_cons]
      exact ih.append_left _
  | @swap left right queue _ =>
      simp only [List.flatMap_cons, ← List.append_assoc]
      exact (List.perm_append_comm).append_right _
  | merge dir front back queue =>
      simp only [List.flatMap_cons, Request.segments, List.flatMap_append, List.append_assoc]
      exact .refl _
  | trans _ _ ih ih' => exact ih'.trans ih

theorem Elevator.fits {queue queue' : List Request} (h : Elevator queue queue')
    (hfits : ∀ req ∈ queue, req.Fits) : ∀ req ∈ queue', req.Fits := by
  induction h with
  | refl => exact hfits
  | cons req _ ih =>
      obtain ⟨hreq, hrest⟩ := List.forall_mem_cons.mp hfits
      exact List.forall_mem_cons.mpr ⟨hreq, ih hrest⟩
  | @swap left right queue _ =>
      obtain ⟨hleft, hrest⟩ := List.forall_mem_cons.mp hfits
      obtain ⟨hright, hqueue⟩ := List.forall_mem_cons.mp hrest
      exact List.forall_mem_cons.mpr ⟨hright, List.forall_mem_cons.mpr ⟨hleft, hqueue⟩⟩
  | merge dir front back queue =>
      obtain ⟨hfront, hrest⟩ := List.forall_mem_cons.mp hfits
      obtain ⟨hback, hqueue⟩ := List.forall_mem_cons.mp hrest
      refine List.forall_mem_cons.mpr ⟨fun bio hbio => ?_, hqueue⟩
      rcases List.mem_append.mp hbio with hmem | hmem
      · exact hfront bio hmem
      · exact hback bio hmem
  | trans _ _ ih ih' => exact ih' (ih hfits)

theorem Elevator.outcome {queue queue' : List Request} (h : Elevator queue queue')
    (memory disk : Cells) :
    Patch.applyAll (queue'.flatMap (Request.stores memory)) disk =
        Patch.applyAll (queue.flatMap (Request.stores memory)) disk ∧
      (expected memory disk queue').Perm (expected memory disk queue) := by
  induction h generalizing disk with
  | refl => exact ⟨rfl, .refl _⟩
  | cons req _ ih =>
      obtain ⟨hdisk, hlog⟩ := ih (Patch.applyAll (req.stores memory) disk)
      refine ⟨?_, hlog.append_left _⟩
      simp only [List.flatMap_cons, Patch.applyAll_append, hdisk]
  | @swap left right queue hindependent =>
      have hcomm := stores_comm hindependent memory disk
      refine ⟨?_, ?_⟩
      · simp only [List.flatMap_cons, Patch.applyAll_append, hcomm]
      · simp only [expected, expected_after hindependent, expected_after hindependent.symm,
          hcomm, ← List.append_assoc]
        exact (List.perm_append_comm).append_right _
  | merge dir front back queue =>
      refine ⟨?_, ?_⟩
      · simp only [List.flatMap_cons, stores_append, List.append_assoc]
      · simp only [expected, expected_merge, stores_append, Patch.applyAll_append,
          List.append_assoc]
        exact .refl _
  | trans _ _ ih ih' =>
      obtain ⟨hdisk, hlog⟩ := ih disk
      obtain ⟨hdisk', hlog'⟩ := ih' disk
      exact ⟨hdisk'.trans hdisk, hlog'.trans hlog⟩

theorem apart_symm {left right : BioVec} (h : left.Apart right) : right.Apart left := Or.symm h

/--
Both queues are served to their ends, and leave the same array and the same
completions, each with the same status and the same bytes in its buffer.
-/
theorem elevator_transparent (layer layer' : BlockLayer) {queue queue' : List Request}
    (helevator : Elevator queue queue') (ram : Ram) (hfits : ∀ req ∈ queue, req.Fits)
    (hapart : (queue.flatMap Request.segments).Pairwise BioVec.Apart) :
    ∃ passes final passes' final',
      (∀ fuel, fsdskRequest layer (passes + fuel) queue ram = some (.ok final)) ∧
      (∀ fuel, fsdskRequest layer' (passes' + fuel) queue' ram = some (.ok final')) ∧
      final'.ram.data = final.ram.data ∧ final'.log.Perm final.log := by
  have hapart' : (queue'.flatMap Request.segments).Pairwise BioVec.Apart :=
    helevator.segments.pairwise_iff (fun h => apart_symm h) |>.mpr hapart
  obtain ⟨passes, hrun⟩ := fsdskRequest_eq layer hfits ram
  obtain ⟨passes', hrun'⟩ := fsdskRequest_eq layer' (helevator.fits hfits) ram
  have hself : ∀ pieces, Agree pieces ram.memory ram.memory := fun _ _ _ _ _ => rfl
  obtain ⟨hdata, hlog⟩ := serve_queue (hself _) (segments_pairwise hapart)
  obtain ⟨hdata', hlog'⟩ := serve_queue (hself _) (segments_pairwise hapart')
  obtain ⟨hdisk, hperm⟩ := helevator.outcome ram.memory ram.data
  refine ⟨passes, _, passes', _, hrun, hrun', ?_, ?_⟩
  · rw [hdata', hdata, hdisk]
  · rw [hlog', hlog]
    exact hperm

def firstWrite : Bio := ⟨0, [⟨0, 512, 0⟩]⟩

def secondWrite : Bio := ⟨1, [⟨0, 512, 512⟩]⟩

def farRead : Request := ⟨.read, [⟨5, [⟨1, 512, 0⟩]⟩]⟩

/-- The read passes the first write, which is then merged with the second. -/
theorem elevator_merges_writes :
    ∃ passes final passes' final',
      (∀ fuel, fsdskRequest kernelLayer (passes + fuel)
        [⟨.write, [firstWrite]⟩, farRead, ⟨.write, [secondWrite]⟩] twoSectors =
          some (.ok final)) ∧
      (∀ fuel, fsdskRequest kernelLayer (passes' + fuel)
        [farRead, ⟨.write, [firstWrite, secondWrite]⟩] twoSectors = some (.ok final')) ∧
      final'.ram.data = final.ram.data ∧ final'.log.Perm final.log := by
  have hswap : Request.Independent ⟨.write, [firstWrite]⟩ farRead := by decide +kernel
  exact elevator_transparent kernelLayer kernelLayer
    ((Elevator.swap [⟨.write, [secondWrite]⟩] hswap).trans
      ((Elevator.merge .write [firstWrite] [secondWrite] []).cons farRead))
    twoSectors (by decide +kernel) (by decide +kernel)

end FarsightDriver.RamDisk
