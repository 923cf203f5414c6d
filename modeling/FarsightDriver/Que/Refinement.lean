import FarsightDriver.Foundation.BoundedFifo
import FarsightDriver.Que.Basic
import Mathlib.Data.Int.ModEq

/-!
# The queue refines a bounded FIFO list

While a loop runs, `num` is stale: the loop invariants therefore speak of a
window of explicit length, and `Placed Q k` ties `head` and `tail` to it.  The
invariant of a queue between two calls is the instance `k = num`.
-/

namespace FarsightDriver.Que

open FarsightDriver.Foundation

/-- `head` is a position and `tail` is the position before `head + k`. -/
structure Placed (Q : QUE) (k : Nat) : Prop where
  head_nonneg : 0 ≤ Q.head
  head_lt : Q.head < queSize
  tail_ge : -1 ≤ Q.tail
  tail_lt : Q.tail < queSize
  tail_next : (Q.tail + 1) % queSize = (Q.head + k) % queSize

structure WellFormed (Q : QUE) : Prop where
  num_nonneg : 0 ≤ Q.num
  num_le : Q.num ≤ queSize
  placed : Placed Q Q.num.toNat

theorem queSize_eq : queSize = 10240 := rfl

theorem ofNat_val (n : Nat) : ((Fin.ofNat queSize n).val : Int) = (n : Int) % queSize := by
  simp

theorem checkedInt_index {value : Int} (hlow : -1 ≤ value)
    (hhigh : value ≤ queSize) : checkedInt value = .ok value := by
  rw [queSize_eq] at hhigh
  apply checkedInt_ok <;> simp only [intMin, intMax] <;> omega

theorem checkedInt_pred {n : Nat} (h : n ≤ queSize) :
    checkedInt (((n + 1 : Nat) : Int) - 1) = .ok (n : Int) := by
  have hpred : ((n + 1 : Nat) : Int) - 1 = n := by omega
  rw [hpred]
  exact checkedInt_index (by omega) (by exact_mod_cast h)

/-! ## The loop of `enque` -/

/-- One pass of the loop stores its byte just behind the window. -/
theorem enqueLoop_pass {Q : QUE} {k n : Nat} (h : Placed Q k) (hk : k < queSize)
    (hn : n ≤ queSize) (byte : DataT) (rest : List DataT) :
    ∃ Q', enqueLoop Q (byte :: rest) (n + 1 : Nat) = enqueLoop Q' rest n ∧
      Q'.head = Q.head ∧ Q'.num = Q.num ∧ Placed Q' (k + 1) ∧
      Ring.window Q'.data Q'.head.toNat (k + 1) =
        Ring.window Q.data Q.head.toNat k ++ [byte] := by
  have hge := h.tail_ge
  have hlt := h.tail_lt
  have hhead := h.head_nonneg
  have hnext := h.tail_next
  have hpos : (Q.tail + 1).tmod queSize =
      ((Fin.ofNat queSize (Q.head.toNat + k)).val : Int) := by
    rw [Int.tmod_eq_emod_of_nonneg (by omega), hnext, ofNat_val]
    congr 1
    omega
  have hne : ((n + 1 : Nat) : Int) ≠ 0 := by omega
  have hadd : checkedInt (Q.tail + 1) = .ok (Q.tail + 1) :=
    checkedInt_index (by omega) (by omega)
  refine ⟨{ Q with
      data := Q.data.set _ byte (Fin.ofNat queSize (Q.head.toNat + k)).isLt
      tail := (Fin.ofNat queSize (Q.head.toNat + k)).val }, ?_, rfl, rfl, ?_,
    Ring.window_push _ _ _ _ hk⟩
  · rw [enqueLoop, if_neg hne]
    simp only [checkedInt_pred hn, hadd, hpos, storeCell_ok, bind, Except.bind]
  · have hmod := ofNat_val (Q.head.toNat + k)
    constructor
    · exact h.head_nonneg
    · exact h.head_lt
    · simp only [queSize_eq] at *
      omega
    · simp only [queSize_eq] at *
      omega
    · simp only [queSize_eq] at *
      omega

theorem enqueLoop_spec {Q : QUE} {k n : Nat} {data : List DataT} (h : Placed Q k)
    (hfit : k + n ≤ queSize) (hdata : n ≤ data.length) :
    ∃ Q', enqueLoop Q data n = .ok Q' ∧ Q'.head = Q.head ∧ Q'.num = Q.num ∧
      Placed Q' (k + n) ∧
      Ring.window Q'.data Q'.head.toNat (k + n) =
        Ring.window Q.data Q.head.toNat k ++ data.take n := by
  induction n generalizing Q k data with
  | zero => exact ⟨Q, by simp, rfl, rfl, h, by simp⟩
  | succ n ih =>
      cases data with
      | nil => simp at hdata
      | cons byte rest =>
          obtain ⟨Q₁, hpass, hhead₁, hnum₁, hplaced₁, hwindow₁⟩ :=
            enqueLoop_pass h (by omega) (by omega : n ≤ queSize) byte rest
          obtain ⟨Q', hloop, hhead, hnum, hplaced, hwindow⟩ :=
            ih hplaced₁ (by omega) (by simpa using hdata)
          have hlen : k + 1 + n = k + (n + 1) := by omega
          rw [hlen] at hplaced hwindow
          refine ⟨Q', hpass.trans hloop, hhead.trans hhead₁, hnum.trans hnum₁,
            hplaced, ?_⟩
          rw [hwindow, hwindow₁]
          simp

/-! ## The loop of `deque` -/

theorem dequeLoop_pass {Q : QUE} {k n : Nat} (h : Placed Q (k + 1))
    (hn : n ≤ queSize) (cell : DataT) (rest : List DataT) :
    ∃ Q' byte, dequeLoop Q (cell :: rest) (n + 1 : Nat) =
        (dequeLoop Q' rest n).map (fun result => (result.1, byte :: result.2)) ∧
      Q'.num = Q.num ∧ Placed Q' k ∧
      Ring.window Q.data Q.head.toNat (k + 1) =
        byte :: Ring.window Q'.data Q'.head.toNat k := by
  have hnonneg := h.head_nonneg
  have hlt := h.head_lt
  have hload : loadCell Q.data Q.head = .ok Q.data[Fin.ofNat queSize Q.head.toNat] := by
    have hhead : Q.head = ((Fin.ofNat queSize Q.head.toNat).val : Int) := by
      rw [ofNat_val, Int.toNat_of_nonneg hnonneg, Int.emod_eq_of_lt hnonneg hlt]
    conv_lhs => rw [hhead]
    exact loadCell_ok _ _
  have hadd : checkedInt (Q.head + 1) = .ok (Q.head + 1) :=
    checkedInt_index (by omega) (by omega)
  have hwrap : (Q.head + 1).tmod queSize = (Q.head + 1) % queSize :=
    Int.tmod_eq_emod_of_nonneg (by omega)
  have hnat : ((Q.head + 1) % queSize).toNat = (Q.head.toNat + 1) % queSize := by
    simp only [queSize_eq] at *
    omega
  have hne : ((n + 1 : Nat) : Int) ≠ 0 := by omega
  refine ⟨{ Q with head := (Q.head + 1) % queSize },
    Q.data[Fin.ofNat queSize Q.head.toNat], ?_, rfl, ?_, ?_⟩
  · rw [dequeLoop, if_neg hne]
    simp only [checkedInt_pred hn, hload, hadd, hwrap, bind, Except.bind]
    cases dequeLoop { Q with head := (Q.head + 1) % queSize } rest n <;> rfl
  · have hge := h.tail_ge
    have hbelow := h.tail_lt
    have hmod := h.tail_next
    constructor <;> simp only [queSize_eq] at * <;> omega
  · simp only [hnat]
    exact Ring.window_cons _ _ _

theorem dequeLoop_spec {Q : QUE} {k n : Nat} {data : List DataT} (h : Placed Q k)
    (hstock : n ≤ k) (hfit : k ≤ queSize) (hdata : n ≤ data.length) :
    ∃ Q', dequeLoop Q data n =
        .ok (Q', (Ring.window Q.data Q.head.toNat k).take n ++ data.drop n) ∧
      Q'.num = Q.num ∧ Placed Q' (k - n) ∧
      Ring.window Q'.data Q'.head.toNat (k - n) =
        (Ring.window Q.data Q.head.toNat k).drop n := by
  induction n generalizing Q k data with
  | zero => exact ⟨Q, by simp, rfl, h, by simp⟩
  | succ n ih =>
      cases data with
      | nil => simp at hdata
      | cons cell rest =>
          obtain ⟨j, rfl⟩ : ∃ j, k = j + 1 := ⟨k - 1, by omega⟩
          obtain ⟨Q₁, byte, hpass, hnum₁, hplaced₁, hwindow₁⟩ :=
            dequeLoop_pass h (by omega : n ≤ queSize) cell rest
          obtain ⟨Q', hloop, hnum, hplaced, hwindow⟩ :=
            ih hplaced₁ (by omega) (by omega) (by simpa using hdata)
          refine ⟨Q', ?_, hnum.trans hnum₁, by simpa using hplaced, ?_⟩
          · rw [hpass, hloop, hwindow₁]
            rfl
          · rw [hwindow₁]
            simpa using hwindow

theorem dequeLoop_overrun {Q : QUE} {k n : Nat} {data : List DataT} (h : Placed Q k)
    (hstock : n ≤ k) (hfit : k ≤ queSize) (hdata : data.length < n) :
    dequeLoop Q data n = .error .outOfBounds := by
  induction n generalizing Q k data with
  | zero => omega
  | succ n ih =>
      cases data with
      | nil => rfl
      | cons cell rest =>
          obtain ⟨j, rfl⟩ : ∃ j, k = j + 1 := ⟨k - 1, by omega⟩
          obtain ⟨Q₁, byte, hpass, -, hplaced₁, -⟩ :=
            dequeLoop_pass h (by omega : n ≤ queSize) cell rest
          rw [hpass, ih hplaced₁ (by omega) (by omega) (by simpa using hdata)]
          rfl

/-! ## Whole calls -/

theorem contents_length (Q : QUE) : (contents Q).length = Q.num.toNat := by
  simp [contents]

theorem WellFormed.zeroed : WellFormed { zeroed with tail := -1 } := by
  constructor
  · exact le_refl 0
  · exact Int.natCast_nonneg _
  · constructor <;> simp [Que.zeroed, queSize_eq]

theorem contents_zeroed (tail : Int) : contents { zeroed with tail := tail } = [] := rfl

theorem enque_spec {Q : QUE} (h : WellFormed Q) (data : List DataT) {size : Int}
    (hsize : 0 ≤ size) (hdata : min size (queSize - Q.num) ≤ data.length) :
    ∃ Q', enque Q data size = .ok (Q', min size (queSize - Q.num)) ∧ WellFormed Q' ∧
      Q'.num = Q.num + min size (queSize - Q.num) ∧
      contents Q' =
        contents Q ++ data.take (min size (queSize - Q.num)).toNat := by
  have hnum := h.num_nonneg
  have hle := h.num_le
  by_cases hfull : Q.num = queSize
  · have hzero : min size (queSize - Q.num) = 0 := by omega
    refine ⟨Q, ?_, h, by omega, by simp [hzero]⟩
    simp [enque, isfullQue, hfull, hsize]
  · obtain ⟨n, hn⟩ := Int.eq_ofNat_of_zero_le
      (show 0 ≤ min size (queSize - Q.num) by omega)
    have hfree : checkedInt (queSize - Q.num) = .ok (queSize - Q.num) :=
      checkedInt_index (by omega) (by omega)
    have hclamp :
        (if size < queSize - Q.num then size else queSize - Q.num) = n := by
      split <;> omega
    obtain ⟨Q', hloop, -, hnum', hplaced, hwindow⟩ :=
      enqueLoop_spec (n := n) h.placed (by omega) (by omega : n ≤ data.length)
    have hsum : checkedInt (Q'.num + n) = .ok (Q.num + n) := by
      rw [hnum']
      exact checkedInt_index (by omega) (by omega)
    have htoNat : (Q.num + n).toNat = Q.num.toNat + n := by omega
    refine ⟨{ Q' with num := Q.num + n }, ?_, ⟨by simp only; omega, by simp only; omega, ?_⟩,
      by simp [hn], ?_⟩
    · have hnot : isfullQue Q = false := by
        simpa [isfullQue] using fun heq => hfull heq.symm
      simp only [enque, hnot, Bool.false_eq_true, if_false, hfree, bind, Except.bind,
        hclamp, hloop, hsum, pure, Except.pure, hn]
    · rw [htoNat]
      exact ⟨hplaced.head_nonneg, hplaced.head_lt, hplaced.tail_ge, hplaced.tail_lt,
        hplaced.tail_next⟩
    · simp only [contents, htoNat, hwindow, hn]
      simp

theorem deque_spec {Q : QUE} (h : WellFormed Q) (data : List DataT) {size : Int}
    (hsize : 0 ≤ size) (hdata : min size Q.num ≤ data.length) :
    ∃ Q', deque Q data size =
        .ok (Q', (contents Q).take (min size Q.num).toNat ++
          data.drop (min size Q.num).toNat, min size Q.num) ∧
      WellFormed Q' ∧ Q'.num = Q.num - min size Q.num ∧
      contents Q' = (contents Q).drop (min size Q.num).toNat := by
  have hnum := h.num_nonneg
  have hle := h.num_le
  obtain ⟨n, hn⟩ := Int.eq_ofNat_of_zero_le (show 0 ≤ min size Q.num by omega)
  have hclamp : (if size < Q.num then size else Q.num) = n := by
    split <;> omega
  obtain ⟨Q', hloop, hnum', hplaced, hwindow⟩ :=
    dequeLoop_spec (n := n) h.placed (by omega) (by omega)
      (by omega : n ≤ data.length)
  have hdiff : checkedInt (Q'.num - n) = .ok (Q.num - n) := by
    rw [hnum']
    exact checkedInt_index (by omega) (by omega)
  have htoNat : (Q.num - n).toNat = Q.num.toNat - n := by omega
  refine ⟨{ Q' with num := Q.num - n }, ?_, ⟨by simp only; omega, by simp only; omega, ?_⟩,
    by simp [hn], ?_⟩
  · simp only [deque, hclamp, hloop, bind, Except.bind, hdiff, pure, Except.pure, hn]
    rfl
  · rw [htoNat]
    exact ⟨hplaced.head_nonneg, hplaced.head_lt, hplaced.tail_ge, hplaced.tail_lt,
      hplaced.tail_next⟩
  · simp only [contents, htoNat, hwindow, hn]
    simp

theorem deque_overrun {Q : QUE} (h : WellFormed Q) (data : List DataT) {size : Int}
    (hdata : data.length < min size Q.num) :
    deque Q data size = .error .outOfBounds := by
  have hnum := h.num_nonneg
  have hle := h.num_le
  obtain ⟨n, hn⟩ := Int.eq_ofNat_of_zero_le (show 0 ≤ min size Q.num by omega)
  have hclamp : (if size < Q.num then size else Q.num) = n := by
    split <;> omega
  have hloop := dequeLoop_overrun (n := n) h.placed (by omega) (by omega)
    (by omega : data.length < n)
  simp only [deque, hclamp, hloop, bind, Except.bind]

/-! ## Runs of calls -/

inductive Call where
  | initQue
  | enque (data : List DataT) (size : Int)
  | deque (data : List DataT) (size : Int)

/--
The calls made on one queue.  A call is allowed when its size is not negative
and its buffer is at least that long; a call that faults has no successor.
-/
def system : System QUE Call where
  init Q := (∃ memory, createQue memory = .ok Q) ∨ ∃ memory, (initQue memory).1 = Q
  step Q
    | .initQue => some (initQue Q).1
    | .enque data size =>
        if 0 ≤ size ∧ size ≤ data.length then
          (enque Q data size).toOption.map fun result => result.1
        else none
    | .deque data size =>
        if 0 ≤ size ∧ size ≤ data.length then
          (deque Q data size).toOption.map fun result => result.1
        else none

/-- The list a queue stands for, cut to the capacity it has to have. -/
def abstract (Q : QUE) : BoundedFifo DataT queSize where
  items := (contents Q).take queSize
  bounded := List.length_take_le _ _

theorem abstract_items {Q : QUE} (h : WellFormed Q) : (abstract Q).items = contents Q := by
  apply List.take_of_length_le
  have hle := h.num_le
  rw [contents_length]
  omega

def Call.op : Call → BoundedFifo.Op DataT
  | .initQue => .reset
  | .enque data size => .offer data size.toNat
  | .deque _ size => .serve size.toNat

theorem init_wellFormed {Q : QUE} (h : system.init Q) : WellFormed Q ∧ contents Q = [] := by
  obtain ⟨memory, hcreate⟩ | ⟨memory, rfl⟩ := h
  · cases memory with
    | none => simp [createQue] at hcreate
    | some memory =>
        simp only [createQue, Except.ok.injEq] at hcreate
        subst Q
        exact ⟨WellFormed.zeroed, contents_zeroed _⟩
  · exact ⟨WellFormed.zeroed, contents_zeroed _⟩

theorem abstract_eq {Q : QUE} (h : WellFormed Q) {q : BoundedFifo DataT queSize}
    (hq : contents Q = q.items) : abstract Q = q :=
  BoundedFifo.ext (by rw [abstract_items h, hq])

theorem system_step {Q next : QUE} {call : Call} (h : WellFormed Q)
    (hstep : system.step Q call = some next) :
    WellFormed next ∧
      (BoundedFifo.system DataT queSize).step (abstract Q) call.op =
        some (abstract next) := by
  have hnum := h.num_nonneg
  have hle := h.num_le
  have hlength := contents_length Q
  cases call with
  | initQue =>
      simp only [system, initQue, Option.some.injEq] at hstep
      subst next
      refine ⟨WellFormed.zeroed, ?_⟩
      simp only [BoundedFifo.system, Call.op, Option.some.injEq]
      exact (abstract_eq WellFormed.zeroed (contents_zeroed _)).symm
  | enque data size =>
      simp only [system] at hstep
      split at hstep
      case isFalse => simp at hstep
      case isTrue hargs =>
        obtain ⟨Q', hcall, hinv, -, hcontents⟩ :=
          enque_spec h data hargs.1 (by omega)
        simp only [hcall, Except.toOption, Option.map_some, Option.some.injEq] at hstep
        subst next
        refine ⟨hinv, ?_⟩
        simp only [BoundedFifo.system, Call.op, Option.some.injEq]
        refine (abstract_eq hinv ?_).symm
        simp only [BoundedFifo.offer, BoundedFifo.room, abstract_items h, hlength,
          hcontents]
        congr 2
        omega
  | deque data size =>
      simp only [system] at hstep
      split at hstep
      case isFalse => simp at hstep
      case isTrue hargs =>
        obtain ⟨Q', hcall, hinv, -, hcontents⟩ :=
          deque_spec h data hargs.1 (by omega)
        simp only [hcall, Except.toOption, Option.map_some, Option.some.injEq] at hstep
        subst next
        refine ⟨hinv, ?_⟩
        simp only [BoundedFifo.system, Call.op, Option.some.injEq]
        refine (abstract_eq hinv ?_).symm
        simp only [BoundedFifo.serve, BoundedFifo.stock, abstract_items h, hlength,
          hcontents]
        congr 1
        omega

def simulation : System.Simulation system (fun _ _ => True)
    (BoundedFifo.system DataT queSize) (fun _ _ => True) where
  inv := WellFormed
  abs := abstract
  label _ := Call.op
  init Q hQ := by
    obtain ⟨hinv, hempty⟩ := init_wellFormed hQ
    exact ⟨hinv, by simpa [BoundedFifo.system, abstract_items hinv] using hempty⟩
  step _ _ _ h _ hstep := ⟨(system_step h hstep).1, trivial, (system_step h hstep).2⟩

theorem inv_of_reachable {Q : QUE} (h : system.Reachable Q) : WellFormed Q :=
  simulation.inv_of_reachable h

theorem WellFormed.tail_modEq {Q : QUE} (h : WellFormed Q) :
    Q.tail ≡ Q.head + Q.num - 1 [ZMOD queSize] := by
  have hnext := h.placed.tail_next
  rw [Int.toNat_of_nonneg h.num_nonneg] at hnext
  have hmod : Q.tail + 1 ≡ Q.head + Q.num [ZMOD queSize] := hnext
  simpa using hmod.sub_right 1

theorem que_refines_bounded_fifo {Q : QUE} (h : system.Reachable Q) :
    (0 ≤ Q.num ∧ Q.num ≤ queSize) ∧ (0 ≤ Q.head ∧ Q.head < queSize) ∧
    Q.tail ≡ Q.head + Q.num - 1 [ZMOD queSize] ∧
    (∀ (d : List DataT) (n : Int), 0 ≤ n → n ≤ d.length →
      ∃ Q', enque Q d n = .ok (Q', min n (queSize - Q.num)) ∧
        contents Q' = contents Q ++ d.take (min n (queSize - Q.num)).toNat) ∧
    (∀ (b : List DataT) (n : Int), 0 ≤ n → n ≤ b.length →
      ∃ Q', deque Q b n =
          .ok (Q', (contents Q).take (min n Q.num).toNat ++
            b.drop (min n Q.num).toNat, min n Q.num) ∧
        contents Q' = (contents Q).drop (min n Q.num).toNat) := by
  have hinv := inv_of_reachable h
  refine ⟨⟨hinv.num_nonneg, hinv.num_le⟩,
    ⟨hinv.placed.head_nonneg, hinv.placed.head_lt⟩, hinv.tail_modEq, ?_, ?_⟩
  · intro d n hn hd
    obtain ⟨Q', hcall, -, -, hcontents⟩ := enque_spec hinv d hn (by omega)
    exact ⟨Q', hcall, hcontents⟩
  · intro b n hn hb
    obtain ⟨Q', hcall, -, -, hcontents⟩ := deque_spec hinv b hn (by omega)
    exact ⟨Q', hcall, hcontents⟩

theorem created_reachable : system.Reachable { zeroed with tail := -1 } :=
  .init (.inl ⟨some zeroed, rfl⟩)

theorem created_que_accepts_three :
    ∃ Q', enque { zeroed with tail := -1 } [1, 2, 3] 3 = .ok (Q', 3) ∧
      contents Q' = [1, 2, 3] := by
  obtain ⟨-, -, -, henque, -⟩ := que_refines_bounded_fifo created_reachable
  exact henque [1, 2, 3] 3 (by decide) (by decide)

end FarsightDriver.Que
