import FarsightDriver.Fifo.Solo
import FarsightDriver.Fifo.Stream

/-!
# Reading after `poll`

`mypoll` answers from one look at the queue.  For the only reader the answer
stays good until it reads: the bytes that `poll` saw stay at the head of the
queue, and the call of `myread` that follows does not sleep.
-/

namespace FarsightDriver.Fifo.Blocking

open FarsightDriver.Foundation
open FarsightDriver.Que

variable {model : DataModel} {P : Type*} [DecidableEq P] {s next finish : State model P} {p : P}

def Input.isRead : Input model → Bool
  | .read _ => true
  | .write _ _ _ | .poll | .tick | .timeout => false

def NoReader (s : State model P) : Prop := ∀ q, (s.pc q).reading = false

/-- While nobody reads, the queue only grows at its end. -/
theorem noReader_step (hinv : Inv s) (h : NoReader s) {q : P} {input : Input model}
    (hinput : input.isRead = false) (hstep : step s (q, input) = some next) :
    NoReader next ∧ contents s.que <+: contents next.que := by
  have hself : (next.pc q).reading = false := by
    refine reading_of_step hstep (h q) fun args hread => ?_
    rw [hread] at hinput
    contradiction
  have heffect := step_effect hinv hstep
  refine ⟨fun r => ?_, contents_of_effect heffect (h q)⟩
  by_cases hr : r = q
  · exact hr ▸ hself
  · rw [pc_of_effect heffect hr]
    exact h r

theorem noReader_run (hinv : Inv s) (h : NoReader s) {labels : List (P × Input model)}
    (hlabels : ∀ label ∈ labels, label.2.isRead = false)
    (hrun : (system model P).run s labels = some finish) :
    Inv finish ∧ contents s.que <+: contents finish.que := by
  induction labels generalizing s with
  | nil =>
      obtain rfl := Option.some.inj hrun
      exact ⟨hinv, List.prefix_rfl⟩
  | cons label rest ih =>
      obtain ⟨middle, hstep, hrest⟩ := Option.bind_eq_some_iff.mp hrun
      obtain ⟨hlabel, hlabels⟩ := List.forall_mem_cons.mp hlabels
      obtain ⟨hnobody, hprefix⟩ := noReader_step hinv h hlabel hstep
      obtain ⟨hfinish, hkept⟩ := ih (inv_of_effect hinv (step_effect hinv hstep)) hnobody hlabels
        hrest
      exact ⟨hfinish, hprefix.trans hkept⟩

theorem poll_answer_kept (h : (system model P).ReachableWith (OnlyReader p) s)
    (hpoll : s.pc p = .pollTest) (hdata : s.que.num ≠ 0) {labels : List (P × Input model)}
    (hlabels : ∀ label ∈ labels, label.2.isRead = false)
    (hrun : (system model P).run s ((p, .tick) :: labels) = some finish)
    (hidle : finish.pc p = .idle) (args : ReadArgs model) (habove : args.above = [])
    (hsize : args.size.toNat ≤ bufSize) (hroom : args.size.toNat ≤ args.room) :
    step s (p, .tick) = some ((s.returns p pollReady).finishWait p) ∧
      contents s.que <+: contents finish.que ∧ 0 < finish.que.num ∧
      ∃ n last, (system model P).run finish
          ((p, .read args) :: List.replicate n (p, .tick)) = some last ∧
        last.pc p = .idle ∧ last.ret p = min (args.size.toNat : Int) finish.que.num := by
  obtain ⟨hinv, hstreams⟩ := streams_of_reachable h
  have hnobody : NoReader s := by
    intro q
    by_cases hq : q = p
    · rw [hq, hpoll]
      rfl
    · exact hstreams.others q hq
  have hstep : step s (p, .tick) = some ((s.returns p pollReady).finishWait p) := by
    simp only [step, hpoll]
    exact congrArg some (if_pos hdata)
  have hticked : ∀ label ∈ (p, .tick) :: labels, label.2.isRead = false :=
    List.forall_mem_cons.mpr ⟨rfl, hlabels⟩
  obtain ⟨hfinish, hprefix⟩ := noReader_run hinv hnobody hticked hrun
  have hnum : 0 < finish.que.num := by
    have hlength := hprefix.length_le
    have hnonneg := hinv.que.num_nonneg
    rw [contents_length, contents_length] at hlength
    omega
  have hcount : readCount finish.que args.size ≤ args.size.toNat := min_le_left _ _
  obtain ⟨Q, hread, -⟩ := myread_spec hfinish.que args.buf args.room
    (show readCount finish.que args.size ≤ bufSize by omega)
  rw [if_pos (by omega)] at hread
  have hawake : myreadBlocking finish.que args.buf args.size args.room = some (.ok
      ⟨Q, readCount finish.que args.size,
        (contents finish.que).take (readCount finish.que args.size).toNat⟩) := by
    rw [myreadBlocking, if_pos (by rw [getQueNum]; omega), hread]
  obtain ⟨n, last, hlast, -, hret, hpc⟩ := read_uninterrupted hfinish.que habove hidle hawake
  exact ⟨hstep, hprefix, hnum, n, last, hlast, hpc, hret⟩

/-- `true` polls one byte that `false` wrote, and `false` adds two. -/
def pollAndWrite : List (Bool × Input .ilp32) :=
  [(false, .write blankBuf [7] 1), (false, .tick), (false, .tick), (true, .poll), (true, .tick)]

def writeMore : List (Bool × Input .ilp32) :=
  [(false, .write blankBuf [8, 9] 2), (false, .tick), (false, .tick)]

def Pc.polls : Pc model → Bool
  | .pollTest => true
  | _ => false

def Pc.isIdle : Pc model → Bool
  | .idle => true
  | _ => false

theorem polled_byte_is_read :
    ∃ s finish, (system .ilp32 Bool).run created pollAndWrite = some s ∧
      (system .ilp32 Bool).run s ((true, .tick) :: writeMore) = some finish ∧
      contents s.que <+: contents finish.que ∧ ∃ n last, (system .ilp32 Bool).run finish
          ((true, .read ⟨5, blankBuf, [], 5⟩) :: List.replicate n (true, .tick)) = some last ∧
        last.ret true = 3 := by
  have hpolled : ((system .ilp32 Bool).run created pollAndWrite).map
      (fun s => ((s.pc true).polls, s.que.num)) = some (true, 1) := by
    decide +kernel
  have hwritten : ((system .ilp32 Bool).run created
      (pollAndWrite ++ (true, .tick) :: writeMore)).map
        (fun s => ((s.pc true).isIdle, s.que.num)) = some (true, 3) := by
    decide +kernel
  obtain ⟨s, hs, hfields⟩ := Option.map_eq_some_iff.mp hpolled
  obtain ⟨finish, hfinish, hfields'⟩ := Option.map_eq_some_iff.mp hwritten
  rw [System.run_append, hs, Option.bind_some] at hfinish
  obtain ⟨hpolls, hone⟩ := Prod.mk.inj hfields
  obtain ⟨hidles, hthree⟩ := Prod.mk.inj hfields'
  have hpoll : s.pc true = .pollTest := by
    cases hpc : s.pc true <;> simp_all [Pc.polls]
  have hidle : finish.pc true = .idle := by
    cases hpc : finish.pc true <;> simp_all [Pc.isIdle]
  obtain ⟨-, hprefix, -, n, last, hlast, -, hret⟩ := poll_answer_kept (p := true)
    (System.ReachableWith.run (.init created_init) pollAndWrite (by decide +kernel) hs) hpoll
    (by rw [hone]; decide) (by decide) hfinish hidle ⟨5, blankBuf, [], 5⟩ rfl
    (by decide) (by decide)
  refine ⟨s, finish, hs, hfinish, hprefix, n, last, hlast, ?_⟩
  rw [hret, hthree]
  rfl

end FarsightDriver.Fifo.Blocking
