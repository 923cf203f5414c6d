import FarsightDriver.Fifo.Blocking

/-!
# Calls without interference

A call of the concurrent driver that no other process interrupts is the
sequential call: `mywrite`, and `myread` when there is data to wait for.
-/

namespace FarsightDriver.Fifo.Blocking

open FarsightDriver.Foundation
open FarsightDriver.Que

variable {model : DataModel} {P : Type*} [DecidableEq P]

/-- Steps of `p` alone lead from the first state to the second. -/
inductive Alone (p : P) : State model P → State model P → Prop
  | done (s : State model P) : Alone p s s
  | tick {s middle next : State model P} (hstep : step s (p, .tick) = some middle)
      (rest : Alone p middle next) : Alone p s next

variable {s middle next : State model P} {p : P}

theorem Alone.trans (h : Alone p s middle) (h' : Alone p middle next) : Alone p s next := by
  induction h with
  | done _ => exact h'
  | tick hstep _ ih => exact .tick hstep (ih h')

/-- A call and the steps of its caller alone, as a run of the system. -/
theorem Alone.run {input : Input model} (hcall : step s (p, input) = some middle)
    (h : Alone p middle next) :
    ∃ n, (system model P).run s ((p, input) :: List.replicate n (p, .tick)) = some next := by
  induction h generalizing s input with
  | done s =>
      refine ⟨0, ?_⟩
      simp only [List.replicate_zero, System.run_cons, system, hcall]
      rfl
  | tick hstep _ ih =>
      obtain ⟨n, hrun⟩ := ih hstep
      refine ⟨n + 1, ?_⟩
      rw [List.replicate_succ, System.run_cons]
      simp only [system, hcall] at hrun ⊢
      exact hrun

@[simp] theorem goto_pc (s : State model P) (p : P) (pc : Pc model) :
    (s.goto p pc).pc p = pc :=
  Function.update_self _ _ _

@[simp] theorem returns_ret (s : State model P) (p : P) (value : Int) :
    (s.returns p value).ret p = value :=
  Function.update_self _ _ _

theorem enque_alone {buf : List DataT} {size totalsize : Int} {Q : QUE}
    (hp : s.pc p = .writeEnque buf size)
    (hcall : Que.enque s.que buf size = .ok (Q, totalsize)) :
    ∃ next, Alone p s next ∧ next.que = Q ∧ next.ret p = totalsize ∧ next.pc p = .idle := by
  obtain ⟨middle, henque, hpc, hque⟩ : ∃ middle, step s (p, .tick) = some middle ∧
      middle.pc p = .writeWakeUp totalsize ∧ middle.que = Q := by
    refine ⟨_, by simp only [step, hp, State.enque, hcall]; rfl, ?_, rfl⟩
    exact goto_pc _ _ _
  have hwake : step middle (p, .tick) = some (middle.wakeUp.returns p totalsize) := by
    simp only [step, hpc]
  exact ⟨_, .tick henque (.tick hwake (.done _)), hque, returns_ret _ _ _, goto_pc _ _ _⟩

theorem write_alone {buf : Buf} {ubuffer : List DataT} {size : SizeT model} {Q : QUE} {ret : Int}
    (hp : s.pc p = .idle) (hcall : mywrite s.que buf ubuffer size = .ok (Q, ret)) :
    ∃ called next, step s (p, .write buf ubuffer size) = some called ∧
      Alone p called next ∧ next.que = Q ∧ next.ret p = ret ∧ next.pc p = .idle := by
  simp only [step, hp, State.callWrite]
  simp only [mywrite, enqueSize, bind, Except.bind] at hcall
  cases hcopy : copyFromUser buf.toList ubuffer (if size < 512 then size else 512).toNat with
  | error fault =>
      rw [hcopy] at hcall
      contradiction
  | ok copied =>
      obtain ⟨filled, uncopied⟩ := copied
      simp only [hcopy, Except.toOption, Option.map_some] at hcall ⊢
      by_cases hall : uncopied ≠ 0
      · rw [if_pos hall] at hcall ⊢
        cases hcall
        exact ⟨_, _, rfl, .done _, rfl, returns_ret _ _ _, goto_pc _ _ _⟩
      · rw [if_neg hall] at hcall ⊢
        cases henque : Que.enque s.que filled
            (toInt32 (if size < 512 then size else 512).toNat) with
        | error fault =>
            rw [henque] at hcall
            contradiction
        | ok result =>
            rw [henque] at hcall
            cases hcall
            obtain ⟨next, hrun, hque, hret, hpc⟩ := enque_alone (goto_pc s p _) henque
            exact ⟨_, next, rfl, hrun, hque, hret, hpc⟩

/-- An uninterrupted write leaves the queue and returns the value of the sequential `mywrite`. -/
theorem write_uninterrupted {buf : Buf} {ubuffer : List DataT} {size : SizeT model} {Q : QUE}
    {ret : Int} (hp : s.pc p = .idle) (hcall : mywrite s.que buf ubuffer size = .ok (Q, ret)) :
    ∃ n next, (system model P).run s
        ((p, .write buf ubuffer size) :: List.replicate n (p, .tick)) = some next ∧
      next.que = Q ∧ next.ret p = ret ∧ next.pc p = .idle := by
  obtain ⟨called, next, hstep, halone, hreturned⟩ := write_alone hp hcall
  obtain ⟨n, hrun⟩ := halone.run hstep
  exact ⟨n, next, hrun, hreturned⟩

/-- With data in the queue a reader does not sleep, and chooses what `myread` chooses. -/
theorem wait_alone {args : ReadArgs model} (hp : s.pc p = .readPrepare args)
    (hdata : 0 ≠ getQueNum s.que) :
    ∃ next, Alone p s next ∧ next.que = s.que ∧
      next.pc p = .readDeque args (readSize s.que args.size) := by
  have hprepare : step s (p, .tick) = some (s.prepareToWait p (.readTest args)) := by
    simp only [step, hp]
  obtain ⟨tested, htest, hque, hpc⟩ : ∃ tested,
      step (s.prepareToWait p (.readTest args)) (p, .tick) = some tested ∧
      tested.que = s.que ∧ tested.pc p = .readCompare args := by
    have hwait : (s.prepareToWait p (.readTest args)).pc p = .readTest args := goto_pc _ _ _
    refine ⟨_, by simp only [step, hwait]; rfl, ?_⟩
    rw [if_pos (show 0 ≠ getQueNum (s.prepareToWait p (.readTest args)).que from hdata)]
    exact ⟨rfl, goto_pc _ _ _⟩
  have hcompare : step tested (p, .tick) = some (tested.goto p
      (if intToSizeT model (getQueNum s.que) < args.size then .readChoose args
        else .readDeque args (sizeTToSsizeT args.size))) := by
    simp only [step, hpc, hque]
  have hstart := Alone.tick hprepare (.tick htest (.tick hcompare (.done _)))
  by_cases hless : intToSizeT model (getQueNum s.que) < args.size
  · rw [if_pos hless] at hstart
    have hchoose : step (tested.goto p (.readChoose args)) (p, .tick) =
        some ((tested.goto p (.readChoose args)).goto p
          (.readDeque args (sizeTToSsizeT (intToSizeT model (getQueNum s.que))))) := by
      simp only [step, goto_pc]
      rw [show (tested.goto p (.readChoose args)).que = s.que from hque]
    refine ⟨_, hstart.trans (.tick hchoose (.done _)), hque, ?_⟩
    rw [goto_pc, readSize, if_pos hless]
  · rw [if_neg hless] at hstart
    refine ⟨_, hstart, hque, ?_⟩
    rw [goto_pc, readSize, if_neg hless]

theorem deque_alone {args : ReadArgs model} {totalsize removed : Int} {Q : QUE}
    {memory copied : List DataT} {uncopied : Nat} (hp : s.pc p = .readDeque args totalsize)
    (hcall : Que.deque s.que args.memory (toInt32 totalsize) = .ok (Q, memory, removed))
    (hfit : removed ≤ bufSize)
    (hcopy : copyToUser args.room memory (intToSizeT model totalsize).toNat =
      .ok (copied, uncopied)) :
    ∃ next, Alone p s next ∧ next.que = Q ∧
      next.ret p = (if uncopied ≠ 0 then -eio else totalsize) ∧ next.pc p = .idle := by
  obtain ⟨middle, hdeque, hpc, hque⟩ : ∃ middle, step s (p, .tick) = some middle ∧
      middle.pc p = .readCopy args totalsize memory s.ledger.removals.length ∧
      middle.que = Q := by
    refine ⟨_, by simp only [step, hp, State.deque, hcall]; rfl, ?_, rfl⟩
    exact (goto_pc _ _ _).trans (if_pos hfit)
  have hstep : step middle (p, .tick) = some
      { middle.returns p (if uncopied ≠ 0 then -eio else totalsize) with
        deliveries := middle.deliveries ++
          [⟨p, args.size.toNat, if uncopied ≠ 0 then -eio else totalsize, copied,
            s.ledger.removals.length⟩] } := by
    simp only [step, hpc, State.copy, hcopy, Except.toOption, Option.map_some]
  refine ⟨_, .tick hdeque (.tick hstep (.done _)), hque, ?_, ?_⟩
  · exact returns_ret _ _ _
  · exact goto_pc _ _ _

/-- A `deque` that does not fault in the stack buffer of `myread` stays inside it. -/
theorem removed_le_bufSize {Q Q' : QUE} (h : WellFormed Q) (buf : Buf) (size : SizeT model)
    {memory : List DataT} {removed : Int}
    (hcall : Que.deque Q buf.toList (toInt32 (readSize Q size)) = .ok (Q', memory, removed)) :
    removed ≤ bufSize := by
  have hnum := h.num_nonneg
  have hle := h.num_le
  have hsize := readSize_eq h size
  rw [toInt32_index (by omega) (by omega)] at hcall
  by_cases hshort : buf.toList.length < min (readSize Q size) Q.num
  · rw [deque_overrun h _ hshort] at hcall
    contradiction
  · obtain ⟨Q'', hspec, -⟩ := deque_spec h buf.toList
      (show 0 ≤ readSize Q size by omega) (by omega)
    rw [hspec] at hcall
    cases hcall
    rw [buf_length] at hshort
    simp only [bufSize]
    omega

theorem read_alone (h : WellFormed s.que) {args : ReadArgs model} {result : Read}
    (habove : args.above = []) (hp : s.pc p = .idle)
    (hcall : myreadBlocking s.que args.buf args.size args.room = some (.ok result)) :
    ∃ called next, step s (p, .read args) = some called ∧ Alone p called next ∧
      next.que = result.que ∧ next.ret p = result.ret ∧ next.pc p = .idle := by
  have hmemory : args.memory = args.buf.toList := by
    rw [ReadArgs.memory, habove, List.append_nil]
  simp only [myreadBlocking, Option.ite_none_right_eq_some, Option.some.injEq] at hcall
  obtain ⟨hdata, hcall⟩ := hcall
  have hcalled : step s (p, .read args) = some (s.goto p (.readPrepare args)) := by
    simp only [step, hp]
  obtain ⟨chosen, hwait, hque, hpc⟩ :=
    wait_alone (s := s.goto p (.readPrepare args)) (goto_pc _ _ _) hdata
  rw [show (s.goto p (.readPrepare args)).que = s.que from rfl] at hque hpc
  simp only [myread, dequeSize, bind, Except.bind] at hcall
  cases hdeque : Que.deque s.que args.buf.toList (toInt32 (readSize s.que args.size)) with
  | error fault =>
      rw [hdeque] at hcall
      contradiction
  | ok dequed =>
      obtain ⟨Q, memory, removed⟩ := dequed
      have hfit : removed ≤ bufSize := removed_le_bufSize h args.buf args.size hdeque
      simp only [hdeque] at hcall
      cases hcopy : copyToUser args.room memory
          (intToSizeT model (readSize s.que args.size)).toNat with
      | error fault =>
          rw [hcopy] at hcall
          contradiction
      | ok copied =>
          obtain ⟨copied, uncopied⟩ := copied
          simp only [hcopy] at hcall
          have hresult : Q = result.que ∧
              (if uncopied ≠ 0 then -eio else readSize s.que args.size) = result.ret := by
            by_cases hall : uncopied ≠ 0
            · rw [if_pos hall] at hcall ⊢
              cases hcall
              exact ⟨rfl, rfl⟩
            · rw [if_neg hall] at hcall ⊢
              cases hcall
              exact ⟨rfl, rfl⟩
          have hchosen : Que.deque chosen.que args.memory
              (toInt32 (readSize s.que args.size)) = .ok (Q, memory, removed) := by
            rw [hque, hmemory]
            exact hdeque
          obtain ⟨next, hrun, hque', hret, hpc'⟩ := deque_alone hpc hchosen hfit hcopy
          exact ⟨_, next, hcalled, hwait.trans hrun, hque'.trans hresult.1,
            hret.trans hresult.2, hpc'⟩

/-- An uninterrupted read does what the sequential `myread` does, when there is data. -/
theorem read_uninterrupted (h : WellFormed s.que) {args : ReadArgs model} {result : Read}
    (habove : args.above = []) (hp : s.pc p = .idle)
    (hcall : myreadBlocking s.que args.buf args.size args.room = some (.ok result)) :
    ∃ n next, (system model P).run s
        ((p, .read args) :: List.replicate n (p, .tick)) = some next ∧
      next.que = result.que ∧ next.ret p = result.ret ∧ next.pc p = .idle := by
  obtain ⟨called, next, hstep, halone, hreturned⟩ := read_alone h habove hp hcall
  obtain ⟨n, hrun⟩ := halone.run hstep
  exact ⟨n, next, hrun, hreturned⟩

end FarsightDriver.Fifo.Blocking
