import FarsightDriver.RamDisk.DataLaw

/-!
# The disk over many calls

The kernel calls `fsdsk_request` whenever requests have gathered, and between
two calls the users change the memory of their buffers.  Seen from outside, the
disk is a history of writes: a byte that is read is the one that was written
last to its position, by whatever call, and the first contents of the array
where nothing was written.
-/

namespace FarsightDriver.RamDisk

open FarsightDriver.Foundation

/-- The requests of one call, and the memory of the buffers when it is made. -/
structure Batch where
  memory : Cells
  queue : List Request

/-- The calls one after the other, with the completions of each. -/
def serveBatches (layer : BlockLayer) (fuel : Nat) (disk : Cells) :
    List Batch → Option (Checked (Cells × List (List Completion)))
  | [] => some (.ok (disk, []))
  | batch :: rest =>
      match fsdskRequest layer fuel batch.queue ⟨disk, batch.memory⟩ with
      | none => none
      | some (.error fault) => some (.error fault)
      | some (.ok run) =>
          match serveBatches layer fuel run.ram.data rest with
          | none => none
          | some (.error fault) => some (.error fault)
          | some (.ok (disk, logs)) => some (.ok (disk, run.log :: logs))

structure Batch.Fits (batch : Batch) : Prop where
  requests : ∀ req ∈ batch.queue, req.Fits
  buffers : (batch.queue.flatMap Request.segments).Pairwise BioVec.Apart

/-! ## The history of a disk -/

structure Write where
  position : Nat
  bytes : List UInt8

/-- The byte of the last write that covers the position. -/
def remembered (disk : Cells) (history : List Write) (i : Nat) : UInt8 :=
  match history.reverse.find? fun write =>
      write.position ≤ i ∧ i < write.position + write.bytes.length with
  | some write => write.bytes.getD (i - write.position) 0
  | none => disk i

def Request.writes (memory : Cells) (req : Request) : List Write :=
  match req.dir with
  | .read => []
  | .write => req.pieces.map fun piece =>
      ⟨piece.position, bytesAt memory piece.bvec.buffer piece.bvec.bvLen.toNat⟩

def Piece.answer (dir : Direction) (memory disk : Cells) (history : List Write)
    (piece : Piece) : Completion :=
  ⟨dir, piece.position, piece.bvec, 0,
    match dir with
    | .read => bytesAt (remembered disk history) piece.position piece.bvec.bvLen.toNat
    | .write => bytesAt memory piece.bvec.buffer piece.bvec.bvLen.toNat⟩

/-- What a disk that remembers its writes answers to a queue. -/
def answers (memory disk : Cells) : List Write → List Request → List Completion
  | _, [] => []
  | history, req :: rest =>
      req.pieces.map (Piece.answer req.dir memory disk history) ++
        answers memory disk (history ++ req.writes memory) rest

def Batch.writes (batch : Batch) : List Write :=
  batch.queue.flatMap (Request.writes batch.memory)

def answersBatches (disk : Cells) : List Write → List Batch → List (List Completion)
  | _, [] => []
  | history, batch :: rest =>
      answers batch.memory disk history batch.queue ::
        answersBatches disk (history ++ batch.writes) rest

theorem bytesAt_getD (cells : Cells) (start : Nat) {n k : Nat} (hk : k < n) :
    (bytesAt cells start n).getD k 0 = cells (start + k) := by
  simp [bytesAt, List.getD_eq_getElem?_getD, hk]

theorem remembered_nil (disk : Cells) : remembered disk [] = disk := rfl

theorem remembered_concat (disk : Cells) (history : List Write) (write : Write) (i : Nat) :
    remembered disk (history ++ [write]) i =
      if write.position ≤ i ∧ i < write.position + write.bytes.length then
        write.bytes.getD (i - write.position) 0
      else remembered disk history i := by
  unfold remembered
  rw [List.reverse_append, List.reverse_singleton, List.singleton_append, List.find?_cons]
  by_cases hi : write.position ≤ i ∧ i < write.position + write.bytes.length <;> simp [hi]

theorem remembered_stored (disk memory : Cells) (history : List Write) (piece : Piece) :
    remembered disk (history ++
        [⟨piece.position, bytesAt memory piece.bvec.buffer piece.bvec.bvLen.toNat⟩]) =
      (piece.stored memory).apply (remembered disk history) := by
  funext i
  rw [remembered_concat, bytesAt_length, Piece.stored, ← memcpy_eq_apply, memcpy]
  split
  case isTrue hi => exact bytesAt_getD _ _ (by omega)
  case isFalse => rfl

theorem remembered_writes (disk memory : Cells) (history : List Write) (req : Request) :
    remembered disk (history ++ req.writes memory) =
      Patch.applyAll (req.stores memory) (remembered disk history) := by
  unfold Request.writes Request.stores
  cases req.dir with
  | read => simp
  | write =>
      simp only
      induction req.pieces generalizing history with
      | nil => simp
      | cons piece pieces ih =>
          rw [List.map_cons, List.append_cons, ih, remembered_stored]
          rfl

theorem expected_eq_answers (memory disk : Cells) (history : List Write)
    (queue : List Request) :
    expected memory (remembered disk history) queue = answers memory disk history queue := by
  induction queue generalizing history with
  | nil => rfl
  | cons req rest ih =>
      rw [expected, answers, ← remembered_writes, ih]
      rfl

theorem remembered_queue (disk memory : Cells) (history : List Write) (queue : List Request) :
    Patch.applyAll (queue.flatMap (Request.stores memory)) (remembered disk history) =
      remembered disk (history ++ queue.flatMap (Request.writes memory)) := by
  induction queue generalizing history with
  | nil => simp
  | cons req rest ih =>
      rw [List.flatMap_cons, Patch.applyAll_append, ← remembered_writes, ih, List.flatMap_cons,
        List.append_assoc]

/-! ## The driver and its history -/

theorem serve_batch (layer : BlockLayer) {batch : Batch} (h : batch.Fits) (disk : Cells)
    (history : List Write) :
    ∃ passes final,
      (∀ fuel, fsdskRequest layer (passes + fuel) batch.queue
        ⟨remembered disk history, batch.memory⟩ = some (.ok final)) ∧
      final.ram.data = remembered disk (history ++ batch.writes) ∧
      final.log = answers batch.memory disk history batch.queue := by
  obtain ⟨passes, hrun⟩ :=
    fsdskRequest_eq layer h.requests ⟨remembered disk history, batch.memory⟩
  have hself : Agree (batch.queue.flatMap Request.pieces)
      (Ram.mk (remembered disk history) batch.memory).memory batch.memory :=
    fun _ _ _ _ => rfl
  obtain ⟨hdata, hlog⟩ := serve_queue hself (segments_pairwise h.buffers)
  exact ⟨passes, _, hrun, hdata.trans (remembered_queue _ _ _ _),
    hlog.trans (expected_eq_answers _ _ _ _)⟩

theorem serve_batches (layer : BlockLayer) (disk : Cells) {batches : List Batch}
    (h : ∀ batch ∈ batches, batch.Fits) (history : List Write) :
    ∃ passes, ∀ fuel,
      serveBatches layer (passes + fuel) (remembered disk history) batches =
        some (.ok (remembered disk (history ++ batches.flatMap Batch.writes),
          answersBatches disk history batches)) := by
  induction batches generalizing history with
  | nil => exact ⟨0, fun fuel => by simp [serveBatches, answersBatches]⟩
  | cons batch rest ih =>
      obtain ⟨hbatch, hrest⟩ := List.forall_mem_cons.mp h
      obtain ⟨passes, final, hrun, hdata, hlog⟩ := serve_batch layer hbatch disk history
      obtain ⟨passes', hruns⟩ := ih hrest (history ++ batch.writes)
      refine ⟨passes + passes', fun fuel => ?_⟩
      have hfirst := hrun (passes' + fuel)
      have hothers := hruns (passes + fuel)
      rw [← Nat.add_assoc] at hfirst
      rw [← Nat.add_assoc, Nat.add_comm passes' passes] at hothers
      simp only [serveBatches, hfirst, hdata, hothers, answersBatches, hlog,
        List.flatMap_cons, List.append_assoc]

/--
Over any calls, every segment that is read is completed with the bytes written
last to its place on the disk.
-/
theorem disk_remembers_writes (layer : BlockLayer) (disk : Cells) (batches : List Batch)
    (h : ∀ batch ∈ batches, batch.Fits) :
    ∃ passes, ∀ fuel, serveBatches layer (passes + fuel) disk batches =
      some (.ok (remembered disk (batches.flatMap Batch.writes),
        answersBatches disk [] batches)) := by
  have hruns := serve_batches layer disk h []
  rwa [remembered_nil] at hruns

/-- Two sectors are written by one call; the second is read by the next, and once more changed. -/
def twoCalls : List Batch :=
  [⟨fun i => if i < 512 then 1 else 2, [⟨.write, [⟨0, [⟨0, 512, 0⟩, ⟨0, 512, 512⟩]⟩]⟩]⟩,
    ⟨fun _ => 7, [⟨.read, [⟨1, [⟨1, 512, 0⟩]⟩]⟩, ⟨.write, [⟨1, [⟨0, 512, 0⟩]⟩]⟩]⟩]

theorem twoCalls_answers :
    ∃ passes, ∀ fuel, serveBatches kernelLayer (passes + fuel) (fun _ => 0) twoCalls =
      some (.ok (remembered (fun _ => 0) (twoCalls.flatMap Batch.writes),
        answersBatches (fun _ => 0) [] twoCalls)) := by
  refine disk_remembers_writes kernelLayer (fun _ => 0) twoCalls ?_
  simp only [twoCalls, List.forall_mem_cons, List.not_mem_nil, false_imp_iff, implies_true,
    and_true]
  exact ⟨⟨by decide +kernel, by decide +kernel⟩, ⟨by decide +kernel, by decide +kernel⟩⟩

end FarsightDriver.RamDisk
