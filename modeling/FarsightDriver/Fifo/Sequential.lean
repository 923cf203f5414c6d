import FarsightDriver.Fifo.Device

/-!
# Sequential runs of the FIFO device

A device remembers, next to its queue, what its users saw: the bytes the
successful writes accepted and the bytes the successful reads returned.  A call
that faults ends the run.
-/

namespace FarsightDriver.Fifo

open FarsightDriver.Foundation
open FarsightDriver.Que

structure Device where
  que : QUE
  written : List DataT
  returned : List DataT

inductive Call (model : DataModel) where
  | write (buf : Buf) (ubuffer : List DataT) (size : SizeT model)
  | read (buf : Buf) (size : SizeT model) (room : Nat)

variable {model : DataModel}

def Device.call (d : Device) : Call model → Checked Device
  | .write buf ubuffer size => do
      let (Q, ret) ← mywrite d.que buf ubuffer size
      return { d with
        que := Q
        written := if 0 ≤ ret then d.written ++ ubuffer.take ret.toNat else d.written }
  | .read buf size room => do
      let result ← myread d.que buf size room
      return { d with
        que := result.que
        returned := if 0 ≤ result.ret then d.returned ++ result.copied else d.returned }

def system (model : DataModel) : System (Checked Device) (Call model) where
  init s := ∃ memory Q, createQue memory = .ok Q ∧ s = .ok ⟨Q, [], []⟩
  step s call :=
    match s with
    | .ok d => some (d.call call)
    | .error _ => none

def InBuf (Q : QUE) (size : SizeT model) : Prop := size.toNat ≤ 512 ∨ Q.num ≤ 512

def ReadsInBuf : Checked Device → Call model → Prop
  | .ok d, .read _ size _ => InBuf d.que size
  | _, _ => True

def ReadsFit : Checked Device → Call model → Prop
  | .ok d, .read _ size room => size.toNat ≤ 512 ∧ readCount d.que size ≤ room
  | _, _ => True

theorem inBuf_iff (Q : QUE) (size : SizeT model) :
    InBuf Q size ↔ readCount Q size ≤ bufSize := by
  simp only [InBuf, readCount, bufSize]
  omega

/-! ## Steps -/

theorem call_write {d : Device} (h : WellFormed d.que) (buf : Buf) (ubuffer : List DataT)
    (size : SizeT model) :
    ∃ d' bytes, d.call (.write buf ubuffer size) = .ok d' ∧ WellFormed d'.que ∧
      contents d'.que = contents d.que ++ bytes ∧ d'.written = d.written ++ bytes ∧
      d'.returned = d.returned := by
  have hle := h.num_le
  by_cases hread : min size.toNat 512 ≤ ubuffer.length
  · obtain ⟨Q', hcall, hinv, -, hcontents⟩ := mywrite_spec h buf hread
    have hret : 0 ≤ writeCount d.que size := by
      rw [writeCount]
      omega
    refine ⟨{ d with
      que := Q'
      written := d.written ++ ubuffer.take (writeCount d.que size).toNat },
      _, ?_, hinv, hcontents, rfl, rfl⟩
    simp only [Device.call, hcall, bind, Except.bind, pure, Except.pure, if_pos hret]
  · have hcall := mywrite_fault d.que buf (lt_of_not_ge hread)
    refine ⟨d, [], ?_, h, by simp, by simp, rfl⟩
    simp only [Device.call, hcall, bind, Except.bind, pure, Except.pure]
    rw [if_neg (by decide)]

theorem call_read {d : Device} (h : WellFormed d.que) (buf : Buf) {size : SizeT model}
    (room : Nat) (hfit : InBuf d.que size) :
    ∃ d', d.call (.read buf size room) = .ok d' ∧ WellFormed d'.que ∧ d'.written = d.written ∧
      (readCount d.que size ≤ room →
        d'.returned ++ contents d'.que = d.returned ++ contents d.que) := by
  have hnum := h.num_nonneg
  have hret : 0 ≤ readCount d.que size := by
    rw [readCount]
    omega
  obtain ⟨Q', hcall, hinv, -, hcontents⟩ :=
    myread_spec h buf room ((inBuf_iff _ _).mp hfit)
  simp only [Device.call, hcall, bind, Except.bind, pure, Except.pure]
  by_cases hroom : readCount d.que size ≤ room
  · simp only [if_pos hroom, if_pos hret]
    refine ⟨_, rfl, hinv, rfl, fun _ => ?_⟩
    simp only [hcontents, List.append_assoc, List.take_append_drop]
  · simp only [if_neg hroom]
    exact ⟨_, rfl, hinv, rfl, fun hc => absurd hc hroom⟩

theorem call_ok {d : Device} (h : WellFormed d.que) {call : Call model}
    (hguard : ReadsInBuf (.ok d) call) :
    ∃ d', d.call call = .ok d' ∧ WellFormed d'.que ∧
      (ReadsFit (.ok d) call → d.returned ++ contents d.que = d.written →
        d'.returned ++ contents d'.que = d'.written) := by
  cases call with
  | write buf ubuffer size =>
      obtain ⟨d', bytes, hcall, hinv, hcontents, hwritten, hreturned⟩ :=
        call_write h buf ubuffer size
      refine ⟨d', hcall, hinv, fun _ hconserved => ?_⟩
      rw [hcontents, hwritten, hreturned, ← hconserved, List.append_assoc]
  | read buf size room =>
      obtain ⟨d', hcall, hinv, hwritten, hreturned⟩ :=
        call_read h buf room hguard
      refine ⟨d', hcall, hinv, fun hfit hconserved => ?_⟩
      rw [hreturned hfit.2, hconserved, hwritten]

theorem call_overrun {d : Device} (h : WellFormed d.que) {call : Call model}
    (hguard : ¬ ReadsInBuf (.ok d) call) : d.call call = .error .outOfBounds := by
  cases call with
  | write buf ubuffer size => exact absurd trivial hguard
  | read buf size room =>
      have hlt : bufSize < readCount d.que size := by
        simp only [ReadsInBuf, inBuf_iff] at hguard
        omega
      simp only [Device.call, myread_overrun h buf room hlt, bind, Except.bind]

theorem readsInBuf_of_readsFit (s : Checked Device) (call : Call model)
    (h : ReadsFit s call) : ReadsInBuf s call := by
  cases s with
  | error fault => trivial
  | ok d =>
      cases call with
      | write buf ubuffer size => trivial
      | read buf size room => exact .inl h.1

/-! ## Runs -/

theorem init_ok {s : Checked Device} (h : (system model).init s) :
    ∃ d, s = .ok d ∧ WellFormed d.que ∧ d.returned ++ contents d.que = d.written := by
  obtain ⟨memory, Q, hcreate, rfl⟩ := h
  obtain ⟨hinv, hempty⟩ := init_wellFormed (.inl ⟨memory, hcreate⟩)
  exact ⟨_, rfl, hinv, by simpa using hempty⟩

theorem inv_of_device_reachable {d : Device} (h : (system model).Reachable (.ok d)) :
    WellFormed d.que := by
  have hsound : ∀ e, Except.ok d = (Except.ok e : Checked Device) → WellFormed e.que := by
    refine System.Reachable.invariant
      (fun s => ∀ e, s = Except.ok e → WellFormed e.que) ?_ ?_ h
    · intro s hs e he
      obtain ⟨d₀, rfl, hinv, -⟩ := init_ok hs
      rw [Except.ok.injEq] at he
      exact he ▸ hinv
    · rintro (fault | d₀) call next ih hstep e rfl
      · simp [system] at hstep
      · simp only [system, Option.some.injEq] at hstep
        by_cases hguard : ReadsInBuf (.ok d₀) call
        · obtain ⟨d', hcall, hinv, -⟩ := call_ok (ih d₀ rfl) hguard
          rw [hcall, Except.ok.injEq] at hstep
          exact hstep ▸ hinv
        · rw [call_overrun (ih d₀ rfl) hguard] at hstep
          simp at hstep
  exact hsound d rfl

theorem ok_of_readsInBuf {s : Checked Device}
    (h : (system model).ReachableWith ReadsInBuf s) : ∃ d, s = .ok d := by
  induction h with
  | init hinit =>
      obtain ⟨d, hd, -⟩ := init_ok hinit
      exact ⟨d, hd⟩
  | step reached hguard hstep ih =>
      obtain ⟨d, rfl⟩ := ih
      simp only [system, Option.some.injEq] at hstep
      obtain ⟨d', hcall, -⟩ :=
        call_ok (inv_of_device_reachable reached.reachable) hguard
      exact ⟨d', hstep.symm.trans hcall⟩

theorem conserved_of_readsFit {s : Checked Device}
    (h : (system model).ReachableWith ReadsFit s) :
    ∃ d, s = .ok d ∧ WellFormed d.que ∧ d.returned ++ contents d.que = d.written := by
  induction h with
  | init hinit => exact init_ok hinit
  | step _ hguard hstep ih =>
      obtain ⟨d, rfl, hinv, hconserved⟩ := ih
      simp only [system, Option.some.injEq] at hstep
      obtain ⟨d', hcall, hinv', hstep'⟩ :=
        call_ok hinv (readsInBuf_of_readsFit _ _ hguard)
      exact ⟨d', hstep.symm.trans hcall, hinv', hstep' hguard hconserved⟩

/-! ## The stack buffer of `myread` -/

theorem deque_ok_iff {Q : QUE} (h : WellFormed Q) (buf : Buf) (size : SizeT model) :
    (∃ result, deque Q buf.toList (toInt32 (readSize Q size)) = .ok result) ↔
      InBuf Q size := by
  have hnum := h.num_nonneg
  have hle := h.num_le
  have hsize : toInt32 (readSize Q size) = readCount Q size := by
    rw [readSize_eq h, readCount, min_comm]
    exact toInt32_index (by omega) (by omega)
  have hmin : min (readCount Q size) Q.num = readCount Q size := by
    simp [readCount]
  rw [inBuf_iff, hsize]
  constructor
  · rintro ⟨result, hcall⟩
    by_contra hover
    have hshort : buf.toList.length < min (readCount Q size) Q.num := by
      rw [hmin, buf_length]
      exact lt_of_not_ge hover
    rw [deque_overrun h buf.toList hshort] at hcall
    simp at hcall
  · intro hfit
    have hroom : min (readCount Q size) Q.num ≤ buf.toList.length := by
      rw [hmin, buf_length]
      exact hfit
    obtain ⟨Q', hcall, -⟩ :=
      deque_spec h buf.toList (by rw [readCount]; omega) hroom
    exact ⟨_, hcall⟩

theorem myread_fault_iff {Q : QUE} (h : WellFormed Q) (buf : Buf) (size : SizeT model)
    (room : Nat) :
    myread Q buf size room = .error .outOfBounds ↔ ¬ InBuf Q size := by
  constructor
  · intro hfault hfit
    obtain ⟨Q', hcall, -⟩ :=
      myread_spec h buf room ((inBuf_iff _ _).mp hfit)
    rw [hcall] at hfault
    simp at hfault
  · intro hover
    rw [inBuf_iff] at hover
    exact myread_overrun h buf room (lt_of_not_ge hover)

/--
For every queue the calls can produce and every requested size, the `deque` of
`myread` stays inside its buffer exactly when the size or the queue is at most
512 bytes; runs that keep to this never fault.
-/
theorem myread_in_buf_iff (model : DataModel) :
    (∀ d, (system model).Reachable (.ok d) → ∀ (buf : Buf) (size : SizeT model) room,
      ((∃ result, deque d.que buf.toList (toInt32 (readSize d.que size)) = .ok result) ↔
        size.toNat ≤ 512 ∨ d.que.num ≤ 512) ∧
      (myread d.que buf size room = .error .outOfBounds ↔
        ¬ (size.toNat ≤ 512 ∨ d.que.num ≤ 512)) ∧
      (myreadBlocking d.que buf size room = some (.error .outOfBounds) ↔
        ¬ (size.toNat ≤ 512 ∨ d.que.num ≤ 512))) ∧
    ∀ s, (system model).ReachableWith ReadsInBuf s → ∃ d, s = .ok d := by
  refine ⟨?_, fun s hs => ok_of_readsInBuf hs⟩
  intro d hd buf size room
  have hinv := inv_of_device_reachable hd
  refine ⟨deque_ok_iff hinv buf size, myread_fault_iff hinv buf size room, ?_⟩
  by_cases hempty : d.que.num = 0
  · simp [myreadBlocking, getQueNum, hempty]
  · rw [myreadBlocking, getQueNum, if_pos (Ne.symm hempty), Option.some.injEq]
    exact myread_fault_iff hinv buf size room

def created : Device := ⟨{ zeroed with tail := -1 }, [], []⟩

theorem created_init : (system model).init (.ok created) :=
  ⟨some zeroed, _, rfl, rfl⟩

theorem call_write_full {d : Device} (h : WellFormed d.que)
    (hfree : d.que.num + 512 ≤ queSize) (buf : Buf) {ubuffer : List DataT}
    (hread : 512 ≤ ubuffer.length) :
    ∃ d', d.call (.write buf ubuffer (512 : SizeT .ilp32)) = .ok d' ∧
      WellFormed d'.que ∧ d'.que.num = d.que.num + 512 := by
  have h512 : (512 : SizeT .ilp32).toNat = 512 := rfl
  have hcount : writeCount d.que (512 : SizeT .ilp32) = 512 := by
    rw [writeCount, h512]
    omega
  have hreadable : min (512 : SizeT .ilp32).toNat 512 ≤ ubuffer.length := by
    rw [h512]
    omega
  obtain ⟨Q', hcall, hinv, hnum, -⟩ := mywrite_spec h buf hreadable
  rw [hcount] at hcall hnum
  refine ⟨{ d with
    que := Q'
    written := d.written ++ ubuffer.take 512 }, ?_, hinv, hnum⟩
  simp only [Device.call, hcall, bind, Except.bind, pure, Except.pure]
  rfl

theorem two_writes (buf : Buf) (first second : List DataT) (hfirst : 512 ≤ first.length)
    (hsecond : 512 ≤ second.length) :
    ∃ d, (system .ilp32).run (.ok created)
        [.write buf first 512, .write buf second 512] = some (.ok d) ∧
      WellFormed d.que ∧ d.que.num = 1024 := by
  have hzero : created.que.num = 0 := rfl
  obtain ⟨d₁, hcall₁, hinv₁, hnum₁⟩ :=
    call_write_full (d := created) WellFormed.zeroed (by decide) buf hfirst
  obtain ⟨d₂, hcall₂, hinv₂, hnum₂⟩ :=
    call_write_full hinv₁ (by rw [hnum₁, hzero, queSize_eq]; decide) buf hsecond
  refine ⟨d₂, ?_, hinv₂, by rw [hnum₂, hnum₁, hzero]; rfl⟩
  simp only [System.run_cons, System.run_nil, system, hcall₁, hcall₂, Option.bind_some]

theorem read_overruns_buf :
    (system .ilp32).run (.ok created)
      [.write (Vector.replicate 512 0) (List.replicate 512 1) 512,
        .write (Vector.replicate 512 0) (List.replicate 512 2) 512,
        .read (Vector.replicate 512 0) 1024 1024] = some (.error .outOfBounds) := by
  obtain ⟨d, hrun, hinv, hnum⟩ := two_writes (Vector.replicate 512 0)
    (List.replicate 512 1) (List.replicate 512 2)
    (by rw [List.length_replicate]) (by rw [List.length_replicate])
  have hover : ¬ ReadsInBuf (.ok d)
      (.read (Vector.replicate 512 0) (1024 : SizeT .ilp32) 1024) := by
    have h1024 : (1024 : SizeT .ilp32).toNat = 1024 := rfl
    simp only [ReadsInBuf, InBuf, hnum, h1024]
    omega
  refine (System.run_append _ [_, _] [_]).trans ?_
  rw [hrun, Option.bind_some]
  simp only [System.run_cons, System.run_nil, system, call_overrun hinv hover,
    Option.bind_some]

theorem read_after_two_writes :
    ∃ d : Device, d.que.num = 1024 ∧
      (∃ result, deque d.que (Vector.replicate 512 0 : Buf).toList
        (toInt32 (readSize d.que (512 : SizeT .ilp32))) = .ok result) ∧
      myread d.que (Vector.replicate 512 0) (513 : SizeT .ilp32) 513 =
        .error .outOfBounds := by
  obtain ⟨d, hrun, -, hnum⟩ := two_writes (Vector.replicate 512 0)
    (List.replicate 512 1) (List.replicate 512 2)
    (by rw [List.length_replicate]) (by rw [List.length_replicate])
  have hreach : (system .ilp32).Reachable (.ok d) :=
    System.reachable_of_run created_init hrun
  have h512 : (512 : SizeT .ilp32).toNat = 512 := rfl
  have h513 : (513 : SizeT .ilp32).toNat = 513 := rfl
  refine ⟨d, hnum, ?_, ?_⟩
  · exact ((myread_in_buf_iff .ilp32).1 d hreach _ _ 0).1.mpr (.inl h512.le)
  · refine ((myread_in_buf_iff .ilp32).1 d hreach _ _ 513).2.1.mpr ?_
    rw [h513, hnum]
    omega

/-! ## Conservation of bytes -/

theorem fifo_conserves_bytes (model : DataModel) {s : Checked Device}
    (h : (system model).ReachableWith ReadsFit s) :
    ∃ d, s = .ok d ∧ d.returned ++ contents d.que = d.written ∧
      (∀ (buf : Buf) ubuffer (size : SizeT model), min size.toNat 512 ≤ ubuffer.length →
        ∃ Q', mywrite d.que buf ubuffer size =
          .ok (Q', min (min size.toNat 512) (queSize - d.que.num))) ∧
      (∀ (buf : Buf) ubuffer (size : SizeT model), ubuffer.length < min size.toNat 512 →
        mywrite d.que buf ubuffer size = .ok (d.que, -eio)) ∧
      (∀ (buf : Buf) (size : SizeT model) (room : Nat), size.toNat ≤ 512 →
        min (size.toNat : Int) d.que.num ≤ room →
        ∃ Q', myread d.que buf size room =
          .ok ⟨Q', min (size.toNat : Int) d.que.num,
            (contents d.que).take (min (size.toNat : Int) d.que.num).toNat⟩) := by
  obtain ⟨d, hd, hinv, hconserved⟩ := conserved_of_readsFit h
  refine ⟨d, hd, hconserved, ?_, fun buf _ _ => mywrite_fault d.que buf, ?_⟩
  · intro buf ubuffer size hread
    obtain ⟨Q', hcall, -⟩ := mywrite_spec hinv buf hread
    exact ⟨Q', hcall⟩
  · intro buf size room hsize hroom
    obtain ⟨Q', hcall, -⟩ := myread_spec hinv buf room
      ((inBuf_iff _ _).mp (.inl hsize))
    rw [if_pos (show readCount d.que size ≤ room from hroom)] at hcall
    exact ⟨Q', hcall⟩

instance : (s : Checked Device) → (call : Call model) → Decidable (ReadsFit s call)
  | .ok d, .read _ size room =>
      inferInstanceAs (Decidable (size.toNat ≤ 512 ∧ readCount d.que size ≤ room))
  | .ok _, .write _ _ _ | .error _, _ => .isTrue trivial

/-- Two bytes are written, one is read, a third is written. -/
def writeReadWrite : List (Call .ilp32) :=
  [.write (Vector.replicate 512 0) [7, 8] 2, .read (Vector.replicate 512 0) 1 1,
    .write (Vector.replicate 512 0) [9] 1]

theorem created_device_conserves :
    ∃ d, (system .ilp32).run (.ok created) writeReadWrite = some (.ok d) ∧
      d.returned = [7] ∧ d.written = [7, 8, 9] ∧ d.returned ++ contents d.que = d.written ∧
      ∃ Q', myread d.que (Vector.replicate 512 0) (512 : SizeT .ilp32) 2 =
        .ok ⟨Q', 2, [8, 9]⟩ := by
  have hfields : ((system .ilp32).run (.ok created) writeReadWrite).map
      (fun s => s.map fun d => (d.returned, d.written, d.que.num)) =
        some (.ok ([7], [7, 8, 9], 2)) := by
    decide +kernel
  obtain ⟨s, hrun, hs⟩ := Option.map_eq_some_iff.mp hfields
  have hreach : (system .ilp32).ReachableWith ReadsFit s :=
    System.ReachableWith.run (.init created_init) writeReadWrite (by decide +kernel) hrun
  obtain ⟨d, rfl, hconserved, -, -, hread⟩ := fifo_conserves_bytes .ilp32 hreach
  obtain ⟨hreturned, hrest⟩ := Prod.mk.inj (Except.ok.inj hs)
  obtain ⟨hwritten, hnum⟩ := Prod.mk.inj hrest
  have hcontents : contents d.que = [8, 9] := by
    rw [hreturned, hwritten] at hconserved
    exact (List.cons.inj hconserved).2
  obtain ⟨Q', hcall⟩ := hread (Vector.replicate 512 0) 512 2 (by decide) (by rw [hnum]; decide)
  refine ⟨d, hrun, hreturned, hwritten, hconserved, Q', ?_⟩
  rw [hcall, hnum, hcontents]
  rfl

/-! ## A read whose copy fails -/

/-- Of a read that fails nothing reaches the caller, but its bytes have left the queue. -/
theorem failed_read {Q : QUE} (h : WellFormed Q) (buf : Buf) {size : SizeT model} {room : Nat}
    (hsize : size.toNat ≤ 512) {result : Read} (hcall : myread Q buf size room = .ok result)
    (hret : result.ret = -eio) :
    room < readCount Q size ∧ result.que.num = Q.num - readCount Q size ∧
      contents result.que = (contents Q).drop (readCount Q size).toNat := by
  have hnonneg : 0 ≤ readCount Q size := by
    have hnum := h.num_nonneg
    rw [readCount]
    omega
  obtain ⟨Q', hspec, -, hnum, hcontents⟩ :=
    myread_spec h buf room ((inBuf_iff Q size).mp (.inl hsize))
  rw [hspec, Except.ok.injEq] at hcall
  by_cases hroom : readCount Q size ≤ room
  · rw [if_pos hroom] at hcall
    subst hcall
    simp only [eio] at hret
    omega
  · rw [if_neg hroom] at hcall
    subst hcall
    exact ⟨by omega, hnum, hcontents⟩

theorem failed_read_of_short {Q : QUE} (h : WellFormed Q) (buf : Buf) {size : SizeT model}
    {room : Nat} (hsize : size.toNat ≤ 512) (hshort : room < readCount Q size) :
    ∃ result, myread Q buf size room = .ok result ∧ result.ret = -eio := by
  obtain ⟨Q', hspec, -⟩ := myread_spec h buf room ((inBuf_iff Q size).mp (.inl hsize))
  rw [if_neg (by omega)] at hspec
  exact ⟨_, hspec, rfl⟩

/--
`myread` returns `-EIO` exactly when the user's buffer takes fewer bytes than it
has chosen, and then these are gone: neither the contents nor `num` are what
they were.
-/
theorem failed_read_never_keeps_queue (model : DataModel) {d : Device}
    (h : (system model).Reachable (.ok d)) (buf : Buf) (size : SizeT model) (room : Nat)
    (hsize : size.toNat ≤ 512) :
    (room < min (size.toNat : Int) d.que.num →
      ∃ result, myread d.que buf size room = .ok result ∧
        myreadBlocking d.que buf size room = some (.ok result) ∧ result.ret = -eio ∧
        result.que.num = d.que.num - min (size.toNat : Int) d.que.num ∧
        contents result.que =
          (contents d.que).drop (min (size.toNat : Int) d.que.num).toNat ∧
        result.que.num ≠ d.que.num ∧ contents result.que ≠ contents d.que) ∧
    (min (size.toNat : Int) d.que.num ≤ room →
      ∀ result, myread d.que buf size room = .ok result → result.ret ≠ -eio) := by
  have hinv := inv_of_device_reachable h
  refine ⟨fun hshort => ?_, fun hroom result hcall hret => ?_⟩
  · obtain ⟨result, hcall, hret⟩ := failed_read_of_short hinv buf hsize hshort
    obtain ⟨-, hnum, hcontents⟩ := failed_read hinv buf hsize hcall hret
    rw [readCount] at hnum hcontents
    have hdata : 0 ≠ getQueNum d.que := by
      rw [getQueNum]
      omega
    have hblocking : myreadBlocking d.que buf size room = some (.ok result) := by
      rw [myreadBlocking, if_pos hdata, hcall]
    refine ⟨result, hcall, hblocking, hret, hnum, hcontents, by omega, fun hsame => ?_⟩
    have hlength := congrArg List.length hsame
    rw [contents_length, contents_length] at hlength
    omega
  · obtain ⟨hshort, -⟩ := failed_read hinv buf hsize hcall hret
    rw [readCount] at hshort
    omega

theorem two_bytes_written :
    ∃ d, (system .ilp32).run (.ok created)
        [.write (Vector.replicate 512 0) [7, 8] 2] = some (.ok d) ∧
      contents d.que = [7, 8] ∧ d.que.num = 2 := by
  have hfields : ((system .ilp32).run (.ok created)
      [.write (Vector.replicate 512 0) [7, 8] 2]).map
        (fun s => s.map fun d => (contents d.que, d.que.num)) = some (.ok ([7, 8], 2)) := by
    decide +kernel
  obtain ⟨s, hrun, hs⟩ := Option.map_eq_some_iff.mp hfields
  cases s with
  | error fault => cases hs
  | ok d =>
      obtain ⟨hcontents, hnum⟩ := Prod.mk.inj (Except.ok.inj hs)
      exact ⟨d, hrun, hcontents, hnum⟩

/-- Of two bytes one reaches the user, and both leave the queue. -/
theorem short_read_loses_both :
    ∃ d result, (system .ilp32).run (.ok created)
        [.write (Vector.replicate 512 0) [7, 8] 2] = some (.ok d) ∧
      contents d.que = [7, 8] ∧
      myread d.que (Vector.replicate 512 0) (2 : SizeT .ilp32) 1 = .ok result ∧
      result.ret = -eio ∧ contents result.que = [] ∧ result.que.num = 0 := by
  obtain ⟨d, hrun, hcontents, hnum⟩ := two_bytes_written
  have hreach := System.reachable_of_run created_init hrun
  have hshort : ((1 : Nat) : Int) < min ((2 : SizeT .ilp32).toNat : Int) d.que.num := by
    rw [hnum]
    decide
  obtain ⟨result, hcall, -, hret, hleft, hrest, -⟩ :=
    (failed_read_never_keeps_queue .ilp32 hreach (Vector.replicate 512 0) 2 1 (by decide)).1 hshort
  rw [hnum] at hleft hrest
  exact ⟨d, result, hrun, hcontents, hcall, hret, hrest.trans (by rw [hcontents]; rfl), hleft⟩

/-- Two bytes are written, and read into a buffer that has no room. -/
theorem failed_read_drops_bytes :
    ∃ d result, (system .ilp32).run (.ok created)
        [.write (Vector.replicate 512 0) [7, 8] 2] = some (.ok d) ∧
      contents d.que = [7, 8] ∧
      myread d.que (Vector.replicate 512 0) (2 : SizeT .ilp32) 0 = .ok result ∧
      result.ret = -eio ∧ contents result.que = [] := by
  obtain ⟨d, hrun, hcontents, hnum⟩ := two_bytes_written
  have hinv := inv_of_device_reachable (System.reachable_of_run created_init hrun)
  have hcount : readCount d.que (2 : SizeT .ilp32) = 2 := by
    rw [readCount, hnum]
    rfl
  have hshort : ((0 : Nat) : Int) < readCount d.que (2 : SizeT .ilp32) := by
    rw [hcount]
    decide
  obtain ⟨result, hread, hret⟩ :=
    failed_read_of_short hinv (Vector.replicate 512 0) (by decide) hshort
  obtain ⟨-, -, hleft⟩ := failed_read hinv _ (by decide) hread hret
  rw [hcount, hcontents] at hleft
  exact ⟨d, result, hrun, hcontents, hread, hret, hleft⟩

end FarsightDriver.Fifo
