import FarsightDriver.Exclusive.Semaphore
import FarsightDriver.Exclusive.Spinlock
import FarsightDriver.Fifo.Accesses

/-!
# The unlocked queue behind an exclusive open

The accesses of `myread` and `mywrite` interleave freely, and the drivers rely
on `myopen` alone: whoever calls has the device open.  Composed with the
exclusive opens, the calls are served one after the other, in the order in
which they return.
-/

namespace FarsightDriver.Fifo

open FarsightDriver.Foundation
open FarsightDriver.Que
open FarsightDriver.Fifo.Accesses

variable {model : DataModel}

/-! ## One call of the sequential device -/

/-- A read that fails has removed its bytes and delivers none of them. -/
def Kept : Call model × Reply → Prop
  | (.read _ _ _, reply) => 0 ≤ reply.ret
  | (.write _ _ _, _) => True

def accepted : Call model × Reply → List DataT
  | (.write _ ubuffer _, reply) => if 0 ≤ reply.ret then ubuffer.take reply.ret.toNat else []
  | (.read _ _ _, _) => []

def delivered : Call model × Reply → List DataT
  | (.write _ _ _, _) => []
  | (.read _ _ _, reply) => if 0 ≤ reply.ret then reply.copied else []

/-- The reads that stay inside their stack buffer. -/
def CallFits (Q : QUE) : Call model → Prop
  | .read _ size _ => InBuf Q size
  | .write _ _ _ => True

theorem serve_spec {Q : QUE} (h : WellFormed Q) {call : Call model} (hfit : CallFits Q call) :
    ∃ Q' reply, serve Q call = .ok (Q', reply) ∧ WellFormed Q' ∧
      (Kept (call, reply) →
        delivered (call, reply) ++ contents Q' = contents Q ++ accepted (call, reply)) := by
  cases call with
  | write buf ubuffer size =>
      have hle := h.num_le
      by_cases hread : min size.toNat 512 ≤ ubuffer.length
      · obtain ⟨Q', hcall, hinv, -, hcontents⟩ := mywrite_spec h buf hread
        have hret : 0 ≤ writeCount Q size := by
          rw [writeCount]
          omega
        refine ⟨Q', ⟨writeCount Q size, []⟩, ?_, hinv, fun _ => ?_⟩
        · simp only [serve, hcall, bind, Except.bind]
          rfl
        · simp only [delivered, accepted, if_pos hret, hcontents, List.nil_append]
      · have hcall := mywrite_fault Q buf (lt_of_not_ge hread)
        refine ⟨Q, ⟨-eio, []⟩, ?_, h, fun _ => ?_⟩
        · simp only [serve, hcall, bind, Except.bind]
          rfl
        · have hneg : ¬ (0 : Int) ≤ -eio := by decide
          simp only [delivered, accepted, if_neg hneg, List.nil_append, List.append_nil]
  | read buf size room =>
      have hnum := h.num_nonneg
      obtain ⟨Q', hcall, hinv, -, hcontents⟩ := myread_spec h buf room ((inBuf_iff _ _).mp hfit)
      by_cases hroom : readCount Q size ≤ room
      · rw [if_pos hroom] at hcall
        have hret : 0 ≤ readCount Q size := by
          rw [readCount]
          omega
        refine ⟨Q', ⟨readCount Q size, (contents Q).take (readCount Q size).toNat⟩, ?_, hinv,
          fun _ => ?_⟩
        · simp only [serve, hcall, bind, Except.bind]
          rfl
        · simp only [delivered, accepted, if_pos hret, hcontents, List.take_append_drop,
            List.append_nil]
      · rw [if_neg hroom] at hcall
        refine ⟨Q', ⟨-eio, (contents Q).take room⟩, ?_, hinv, fun hkept => ?_⟩
        · simp only [serve, hcall, bind, Except.bind]
          rfl
        · exact absurd hkept (by simp only [Kept]; decide)

theorem callFits_of_serve {Q Q' : QUE} (h : WellFormed Q) {call : Call model} {reply : Reply}
    (hserve : serve Q call = .ok (Q', reply)) : CallFits Q call := by
  cases call with
  | write buf ubuffer size => trivial
  | read buf size room =>
      by_contra hover
      have hfault := (myread_fault_iff h buf size room).mpr hover
      simp only [serve, hfault, bind, Except.bind, reduceCtorEq] at hserve

/-! ## The log of a run -/

variable {P : Type*}

abbrev Log (model : DataModel) (P : Type*) := List (P × Call model × Reply)

structure Settled (log : Log model P) (Q : QUE) : Prop where
  wellFormed : WellFormed Q
  conserved : (∀ entry ∈ log, Kept entry.2) →
    (log.flatMap fun entry => delivered entry.2) ++ contents Q =
      log.flatMap fun entry => accepted entry.2

theorem settled_of_replays {log : Log model P} {Q : QUE}
    (h : Serial.Replays serve created.que log Q) : Settled log Q := by
  induction h with
  | nil => exact ⟨WellFormed.zeroed, fun _ => rfl⟩
  | @concat log Q Q' p call reply _ hcall ih =>
      obtain ⟨Q'', reply', hserve, hinv, hbytes⟩ :=
        serve_spec ih.wellFormed (callFits_of_serve ih.wellFormed hcall)
      rw [hcall] at hserve
      cases hserve
      refine ⟨hinv, fun hkept => ?_⟩
      have hearlier := ih.conserved fun entry hmem =>
        hkept entry (List.mem_append_left _ hmem)
      have hlast := hbytes (hkept (p, call, reply) (by simp))
      simp only [List.flatMap_append, List.flatMap_singleton, List.append_assoc]
      rw [hlast, ← List.append_assoc, hearlier]

/-! ## Behind a door -/

variable [DecidableEq P] {σ α : Type*}

abbrev Users (σ : Type*) (model : DataModel) (P : Type*) :=
  Serial.State σ QUE P (Call model) (Pc model) Reply

def users (D : Serial.Door σ α P) (model : DataModel) :
    System (Users σ model P) (Serial.Label α P (Call model)) :=
  Serial.system D (program model) created.que

/--
The calls of the log, one after the other, leave the queue `settled`; the queue
in memory is that queue, or on its way from it to what the one call in progress
leaves.
-/
structure Serialized (D : Serial.Door σ α P) (s : Users σ model P) (settled : QUE) : Prop
    extends Settled s.log settled where
  log : Serial.Replays serve created.que s.log settled
  quiet : (∀ p, s.call p = none) → s.object = settled
  returns : ∀ p call pc, s.call p = some (call, pc) → CallFits settled call →
    ∃ n Q reply, serve settled call = .ok (Q, reply) ∧
      (users D model).run s (List.replicate n (.tick p)) = some { s with
        object := Q
        call := Function.update s.call p none
        log := s.log ++ [(p, call, reply)] }

variable {D : Serial.Door σ α P} {s : Users σ model P}

theorem serialized_of_served {settled : QUE}
    (h : Serial.Served D (program model) remaining created.que s settled) :
    Serialized D s settled := by
  have hserve : (fun Q call => remaining Q ((program model).start call)) = serve :=
    funext₂ remaining_start
  have hlog := h.log
  rw [hserve] at hlog
  have hsettled := settled_of_replays hlog
  refine ⟨hsettled, hlog, h.quiet, fun p call pc hcall hfit => ?_⟩
  obtain ⟨Q, reply, hok, -⟩ := serve_spec hsettled.wellFormed hfit
  have hrest : remaining s.object pc = .ok (Q, reply) := by
    rw [← meaning.steps (h.busy p call pc hcall).2]
    exact (remaining_start settled call).trans hok
  obtain ⟨n, hrun⟩ := Serial.run_ticks meaning Pc.left step_decreases hcall hrest
  exact ⟨n, Q, reply, hok, hrun⟩

/-! ## The drivers -/

def spinlockDoor (P : Type*) [DecidableEq P] : Serial.Door (Exclusive.Spinlock.State P) P P where
  system := Exclusive.Spinlock.system P
  guard _ _ := True
  actor := id
  inside s p := s.pc p == .opened
  exclusive h p q hp hq := by
    refine (Exclusive.Spinlock.exclusive_of_reachable h).owner_unique p q ?_ ?_
    · exact congrArg Exclusive.Spinlock.Pc.phase (eq_of_beq hp)
    · exact congrArg Exclusive.Spinlock.Pc.phase (eq_of_beq hq)
  others hstep p hp := by rw [Exclusive.Spinlock.step_others hstep hp]

def semaphoreDoor (P : Type*) [DecidableEq P] :
    Serial.Door (Exclusive.Semaphore.State P) P P where
  system := Exclusive.Semaphore.system P
  guard _ _ := True
  actor := id
  inside s p := s.pc p == .opened
  exclusive h p q hp hq := by
    refine (Exclusive.Semaphore.inv_of_reachable h).permits.exclusive ?_ ?_
    · exact congrArg Exclusive.Semaphore.Pc.holds (eq_of_beq hp)
    · exact congrArg Exclusive.Semaphore.Pc.holds (eq_of_beq hq)
  others hstep p hp := by rw [Exclusive.Semaphore.step_others hstep hp]

/--
Under the spinlock driver the calls of all processes are served one after the
other: each returns what it returns alone on the queue left by the calls that
returned before it.
-/
theorem spinlock_calls_serialized {s : Users (Exclusive.Spinlock.State P) model P}
    (h : (users (spinlockDoor P) model).Reachable s) :
    (∀ p q, s.call p ≠ none → s.call q ≠ none → p = q) ∧
    ∃ settled, Serialized (spinlockDoor P) s settled := by
  have hguarded : (users (spinlockDoor P) model).ReachableWith
      (Serial.guard (spinlockDoor P)) s :=
    h.mono fun s label _ => by cases label <;> trivial
  obtain ⟨settled, hserved⟩ := Serial.served_of_reachable meaning hguarded
  refine ⟨fun p q hp hq => ?_, settled, serialized_of_served hserved⟩
  exact hserved.alone (Serial.door_reachable hguarded) hp hq

/-- Process 0 has the device open and has begun to write. -/
theorem spinlock_writer_serialized :
    ∃ s settled, (users (spinlockDoor (Fin 2)) .ilp32).run
        ⟨⟨none, 1, fun _ => .idle, fun _ => 0⟩, created.que, fun _ => none, []⟩
        (List.replicate 5 (.door 0) ++ [.call 0 (.write (Vector.replicate 512 0) [7, 8] 2)]) =
          some s ∧
      s.call 0 ≠ none ∧ Serialized (spinlockDoor (Fin 2)) s settled := by
  have hrun : ∃ s, (users (spinlockDoor (Fin 2)) .ilp32).run
      ⟨⟨none, 1, fun _ => .idle, fun _ => 0⟩, created.que, fun _ => none, []⟩
      (List.replicate 5 (.door 0) ++ [.call 0 (.write (Vector.replicate 512 0) [7, 8] 2)]) =
        some s ∧ s.call 0 ≠ none :=
    ⟨_, rfl, Option.some_ne_none _⟩
  obtain ⟨s, hrun, hcall⟩ := hrun
  obtain ⟨-, settled, hserialized⟩ := spinlock_calls_serialized
    (System.reachable_of_run ⟨⟨rfl, rfl, fun _ => rfl⟩, rfl, fun _ => rfl, rfl⟩ hrun)
  exact ⟨s, settled, hrun, hcall, hserialized⟩

theorem semaphore_guarded {s : Users (Exclusive.Semaphore.State P) model P}
    (h : (users (semaphoreDoor P) model).Reachable s) :
    (users (semaphoreDoor P) model).ReachableWith (Serial.guard (semaphoreDoor P)) s :=
  h.mono fun s label _ => by cases label <;> trivial

/-- The holder finishes its call, if it is in one. -/
theorem semaphore_call_ends {s : Users (Exclusive.Semaphore.State P) model P} {settled : QUE}
    (h : (users (semaphoreDoor P) model).Reachable s)
    (hserved : Serial.Served (semaphoreDoor P) (program model) remaining created.que s settled)
    {q : P} (hholds : Exclusive.Semaphore.Holds s.door q)
    (hfit : ∀ call pc, s.call q = some (call, pc) → CallFits settled call) :
    ∃ n calm, (users (semaphoreDoor P) model).run s (List.replicate n (.tick q)) = some calm ∧
      calm.door = s.door ∧ ∀ r, calm.call r = none := by
  have hothers : ∀ r, r ≠ q → s.call r = none := by
    intro r hr
    cases hcall : s.call r with
    | none => rfl
    | some entry =>
        obtain ⟨call, pc⟩ := entry
        have hinside := (hserved.busy r call pc hcall).1
        have hdoor := Serial.door_reachable (semaphore_guarded h)
        have hpermits := (Exclusive.Semaphore.inv_of_reachable hdoor).permits
        have hin : (s.door.pc r).holds = true :=
          congrArg Exclusive.Semaphore.Pc.holds (eq_of_beq hinside)
        exact absurd (hpermits.exclusive hin hholds) hr
  cases hcall : s.call q with
  | none =>
      refine ⟨0, s, rfl, rfl, fun r => ?_⟩
      by_cases hr : r = q
      · exact hr ▸ hcall
      · exact hothers r hr
  | some entry =>
      obtain ⟨call, pc⟩ := entry
      obtain ⟨n, Q, reply, -, hrun⟩ :=
        (serialized_of_served hserved).returns q call pc hcall (hfit call pc hcall)
      refine ⟨n, _, hrun, rfl, fun r => ?_⟩
      by_cases hr : r = q
      · subst hr
        exact Function.update_self ..
      · exact (Function.update_of_ne hr ..).trans (hothers r hr)

/--
Whoever waits for the semaphore gets it: the holder has only to finish its call
and to close.  The waiter finds the queue that the calls of the log have left.
-/
theorem semaphore_waiter_served {s : Users (Exclusive.Semaphore.State P) model P}
    (h : (users (semaphoreDoor P) model).Reachable s) :
    ∃ settled, Serialized (semaphoreDoor P) s settled ∧
      ∀ p, Exclusive.Semaphore.Waits s.door p →
        ∃ q, q ≠ p ∧ Exclusive.Semaphore.Holds s.door q ∧
          ((∀ call pc, s.call q = some (call, pc) → CallFits settled call) →
            ∃ ticks closes after, (users (semaphoreDoor P) model).run s
                (List.replicate ticks (.tick q) ++ List.replicate closes (.door q) ++ [.door p]) =
                  some after ∧
              Exclusive.Semaphore.Holds after.door p ∧ (∀ r, after.call r = none) ∧
              Serialized (semaphoreDoor P) after after.object) := by
  obtain ⟨settled, hserved⟩ := Serial.served_of_reachable meaning (semaphore_guarded h)
  refine ⟨settled, serialized_of_served hserved, fun p hwaits => ?_⟩
  have hdoor := Serial.door_reachable (semaphore_guarded h)
  obtain ⟨q, closed, opened, hne, hholds, hcloses, hopens, hin⟩ :=
    Exclusive.Semaphore.waiter_follows hdoor hwaits
  refine ⟨q, hne, hholds, fun hfit => ?_⟩
  obtain ⟨ticks, calm, hticks, hsame, hquiet⟩ := semaphore_call_ends h hserved hholds hfit
  have hruns : (semaphoreDoor P).system.run calm.door
      (List.replicate (s.door.pc q).left q ++ [p]) = some opened := by
    rw [System.run_append, hsame]
    refine Option.bind_eq_some_iff.mpr ⟨closed, hcloses, ?_⟩
    exact Option.bind_eq_some_iff.mpr ⟨opened, hopens, rfl⟩
  have hpass : (users (semaphoreDoor P) model).run calm
      ((List.replicate (s.door.pc q).left q ++ [p]).map .door) =
      some { calm with door := opened } :=
    Serial.run_door (fun a _ => hquiet a) hruns
  have hrun : (users (semaphoreDoor P) model).run s
      (List.replicate ticks (.tick q) ++
        (List.replicate (s.door.pc q).left q ++ [p]).map .door) =
      some { calm with door := opened } := by
    rw [System.run_append]
    exact Option.bind_eq_some_iff.mpr ⟨calm, hticks, hpass⟩
  obtain ⟨settled', hserved'⟩ :=
    Serial.served_of_reachable meaning (semaphore_guarded (h.run hrun))
  have hobject := hserved'.quiet hquiet
  refine ⟨ticks, (s.door.pc q).left, { calm with door := opened }, ?_, hin, hquiet, ?_⟩
  · rw [List.append_assoc]
    simpa only [List.map_append, List.map_replicate, List.map_cons, List.map_nil] using hrun
  · have hfinal := serialized_of_served hserved'
    rwa [← hobject] at hfinal

/-- Process 1 waits while process 0 writes. -/
theorem semaphore_writer_followed :
    ∃ s labels after, (users (semaphoreDoor (Fin 2)) .ilp32).run
        ⟨⟨1, 1, fun _ => .idle, fun _ => 0⟩, created.que, fun _ => none, []⟩
        [.door 0, .door 0, .call 0 (.write (Vector.replicate 512 0) [7, 8] 2), .door 1] =
          some s ∧
      (users (semaphoreDoor (Fin 2)) .ilp32).run s labels = some after ∧
      Exclusive.Semaphore.Holds after.door 1 := by
  have hrun : ∃ s, (users (semaphoreDoor (Fin 2)) .ilp32).run
      ⟨⟨1, 1, fun _ => .idle, fun _ => 0⟩, created.que, fun _ => none, []⟩
      [.door 0, .door 0, .call 0 (.write (Vector.replicate 512 0) [7, 8] 2), .door 1] =
        some s ∧ s.door.pc 1 = .down ∧ s.door.lock = 0 ∧
      ∃ buf ubuffer size pc, s.call 0 = some (.write buf ubuffer size, pc) :=
    ⟨_, rfl, rfl, rfl, _, _, _, _, rfl⟩
  obtain ⟨s, hrun, hdown, hlock, buf, ubuffer, size, pc, hcall⟩ := hrun
  obtain ⟨settled, -, hwaiter⟩ := semaphore_waiter_served
    (System.reachable_of_run
      ⟨⟨rfl, rfl, fun _ => rfl, fun _ => rfl⟩, rfl, fun _ => rfl, rfl⟩ hrun)
  obtain ⟨q, hne, -, hserved⟩ := hwaiter 1 ((Exclusive.Semaphore.waits_iff hdown).mpr hlock)
  obtain rfl : q = 0 := by omega
  obtain ⟨ticks, closes, after, hafter, hholds, -⟩ := hserved fun call pc hcall' => by
    rw [hcall] at hcall'
    cases hcall'
    trivial
  exact ⟨s, _, after, hrun, hafter, hholds⟩

end FarsightDriver.Fifo
