import FarsightDriver.Fifo.Sequential
import FarsightDriver.Que.Loops

/-!
# The `int` sizes of `myread` and `mywrite`

The drivers turn a `size_t` into the `int` that `enque` and `deque` take, after one
comparison in unsigned arithmetic; the queue compares it again in signed arithmetic.
On every queue the sizes stay between 0 and `QUE_SIZE`, no `int` overflows and the
loops make as many passes as the calls return.
-/

namespace FarsightDriver.Fifo.Sizes

open FarsightDriver.Foundation
open FarsightDriver.Que

variable {model : DataModel}

/--
The calls of `mywrite` and `myread`.  A read may go on behind the 512 cells of `buf`,
as far as the stack is writable there.
-/
inductive Call (model : DataModel) where
  | write (buf : Buf) (ubuffer : List DataT) (size : SizeT model)
  | read (stack : List DataT) (size : SizeT model)

def system (model : DataModel) : System QUE (Call model) where
  init Q := ∃ memory, createQue memory = .ok Q
  step Q
    | .write buf ubuffer size => (mywrite Q buf ubuffer size).toOption.map Prod.fst
    | .read stack size => (deque Q stack (dequeSize Q size)).toOption.map Prod.fst

/-! ## The sizes -/

theorem enqueSize_eq (size : SizeT model) : enqueSize size = min size.toNat 512 := by
  have hint : toInt32 (min size.toNat 512 : Nat) = (min size.toNat 512 : Nat) :=
    toInt32_index (by omega) (by rw [queSize_eq]; omega)
  rw [enqueSize, clampSize_toNat, hint]

theorem dequeSize_eq {Q : QUE} (h : WellFormed Q) (size : SizeT model) :
    dequeSize Q size = min Q.num size.toNat := by
  have hnum := h.num_nonneg
  have hle := h.num_le
  rw [dequeSize, readSize_eq h]
  exact toInt32_index (by omega) (by omega)

/-! ## Reachable queues -/

theorem system_step {Q next : QUE} {call : Call model} (h : WellFormed Q)
    (hstep : (system model).step Q call = some next) : WellFormed next := by
  cases call with
  | write buf ubuffer size =>
      simp only [system] at hstep
      by_cases hread : min size.toNat 512 ≤ ubuffer.length
      · obtain ⟨Q', hcall, hinv, -, -⟩ := mywrite_spec h buf hread
        rw [hcall] at hstep
        cases hstep
        exact hinv
      · rw [mywrite_fault Q buf (lt_of_not_ge hread)] at hstep
        cases hstep
        exact h
  | read stack size =>
      simp only [system] at hstep
      have hsize : 0 ≤ dequeSize Q size := by
        have hnum := h.num_nonneg
        rw [dequeSize_eq h]
        omega
      by_cases hfit : min (dequeSize Q size) Q.num ≤ stack.length
      · obtain ⟨Q', hcall, hinv, -, -⟩ := deque_spec h stack hsize hfit
        rw [hcall] at hstep
        cases hstep
        exact hinv
      · rw [deque_overrun h stack (lt_of_not_ge hfit)] at hstep
        cases hstep

theorem wellFormed_of_reachable {Q : QUE} (h : (system model).Reachable Q) : WellFormed Q := by
  refine h.invariant WellFormed ?_ fun Q call next hinv hstep => system_step hinv hstep
  rintro Q ⟨memory, hcreate⟩
  exact (init_wellFormed (.inl ⟨memory, hcreate⟩)).1

theorem deque_of_myread {Q : QUE} {buf : Buf} {size : SizeT model} {room : Nat} {result : Read}
    (h : myread Q buf size room = .ok result) :
    ∃ data ret, deque Q buf.toList (dequeSize Q size) = .ok (result.que, data, ret) := by
  obtain ⟨⟨Q', data, ret⟩, hcall, h⟩ := bind_eq_ok.mp h
  obtain ⟨⟨copied, uncopied⟩, -, h⟩ := bind_eq_ok.mp h
  refine ⟨data, ret, hcall.trans ?_⟩
  dsimp only at h
  split at h <;> cases h <;> rfl

/-- The queues of the device whose reads must stay in `buf` are among these. -/
theorem que_reachable {d : Device} (h : (Fifo.system model).Reachable (.ok d)) :
    (system model).Reachable d.que := by
  have hall : ∀ e, Except.ok d = (Except.ok e : Checked Device) →
      (system model).Reachable e.que := by
    refine System.Reachable.invariant
      (fun s => ∀ e, s = Except.ok e → (system model).Reachable e.que) ?_ ?_ h
    · rintro s ⟨memory, Q, hcreate, rfl⟩ e he
      cases he
      exact .init ⟨memory, hcreate⟩
    · rintro (fault | d₀) call next ih hstep e rfl
      · cases hstep
      · simp only [Fifo.system, Option.some.injEq] at hstep
        have hreached := ih d₀ rfl
        cases call with
        | write buf ubuffer size =>
            obtain ⟨⟨Q, ret⟩, hcall, h⟩ := bind_eq_ok.mp hstep
            cases h
            refine hreached.step (a := .write buf ubuffer size) trivial ?_
            simp only [system, hcall, Except.toOption, Option.map_some]
        | read buf size room =>
            obtain ⟨result, hcall, h⟩ := bind_eq_ok.mp hstep
            cases h
            obtain ⟨data, ret, hdeque⟩ := deque_of_myread hcall
            refine hreached.step (a := .read buf.toList size) trivial ?_
            simp only [system, hdeque, Except.toOption, Option.map_some]
  exact hall d rfl

/-! ## Overflows and passes -/

theorem mywrite_ok {Q : QUE} (h : WellFormed Q) (buf : Buf) (ubuffer : List DataT)
    (size : SizeT model) : ∃ result, mywrite Q buf ubuffer size = .ok result := by
  by_cases hread : min size.toNat 512 ≤ ubuffer.length
  · obtain ⟨Q', hcall, -⟩ := mywrite_spec h buf hread
    exact ⟨_, hcall⟩
  · exact ⟨_, mywrite_fault Q buf (lt_of_not_ge hread)⟩

/-- A store behind the buffer is the only fault of a `deque`. -/
theorem deque_fault {Q : QUE} (h : WellFormed Q) (size : SizeT model) (data : List DataT)
    {fault : Fault} (hfault : deque Q data (dequeSize Q size) = .error fault) :
    fault = .outOfBounds := by
  have hnum := h.num_nonneg
  have hsize : 0 ≤ dequeSize Q size := by
    rw [dequeSize_eq h]
    omega
  by_cases hfit : min (dequeSize Q size) Q.num ≤ data.length
  · obtain ⟨Q', hcall, -⟩ := deque_spec h data hsize hfit
    rw [hcall] at hfault
    cases hfault
  · rw [deque_overrun h data (lt_of_not_ge hfit)] at hfault
    cases hfault
    rfl

theorem myread_fault {Q : QUE} (h : WellFormed Q) (buf : Buf) (size : SizeT model) (room : Nat)
    {fault : Fault} (hfault : myread Q buf size room = .error fault) : fault = .outOfBounds := by
  by_cases hfit : readCount Q size ≤ bufSize
  · obtain ⟨Q', hcall, -⟩ := myread_spec h buf room hfit
    rw [hcall] at hfault
    cases hfault
  · rw [myread_overrun h buf room (lt_of_not_ge hfit)] at hfault
    cases hfault
    rfl

theorem enque_runs {Q : QUE} (h : WellFormed Q) (size : SizeT model) {data : List DataT}
    (hdata : bufSize ≤ data.length) :
    ∃ passes result, EnqueRuns Q data (enqueSize size) passes result := by
  have hsize := enqueSize_eq size
  have hbuf : bufSize = 512 := rfl
  obtain ⟨Q', hcall, -⟩ := enque_spec h data (by omega : 0 ≤ enqueSize size) (by omega)
  obtain ⟨passes, hruns⟩ := enque_ok_iff_runs.mp hcall
  exact ⟨passes, _, hruns⟩

theorem deque_runs {Q : QUE} (h : WellFormed Q) (size : SizeT model) {data : List DataT}
    (hdata : dequeSize Q size ≤ data.length) :
    ∃ passes result, DequeRuns Q data (dequeSize Q size) passes result := by
  have hsize := dequeSize_eq h size
  have hnum := h.num_nonneg
  obtain ⟨Q', hcall, -⟩ := deque_spec h data (by omega : 0 ≤ dequeSize Q size) (by omega)
  obtain ⟨passes, hruns⟩ := deque_ok_iff_runs.mp hcall
  exact ⟨passes, _, hruns⟩

/--
Whatever is asked for, `mywrite` and `myread` hand to `enque` and `deque` a size between
0 and `QUE_SIZE`, these return when the caller's buffer is long enough, after as many
passes of their loops as they return, and nothing overflows an `int`.
-/
theorem sizes_in_range_and_loops_exact {Q : QUE} (h : (system model).Reachable Q)
    (size : SizeT model) :
    (0 ≤ enqueSize size ∧ enqueSize size ≤ queSize) ∧
    (0 ≤ dequeSize Q size ∧ dequeSize Q size ≤ queSize) ∧
    (∀ data, bufSize ≤ data.length →
      ∃ passes result, EnqueRuns Q data (enqueSize size) passes result) ∧
    (∀ data result, enque Q data (enqueSize size) = .ok result ↔
      ∃ passes, EnqueRuns Q data (enqueSize size) passes result) ∧
    (∀ data passes result,
      EnqueRuns Q data (enqueSize size) passes result → result.2 = passes) ∧
    (∀ data, dequeSize Q size ≤ data.length →
      ∃ passes result, DequeRuns Q data (dequeSize Q size) passes result) ∧
    (∀ data result, deque Q data (dequeSize Q size) = .ok result ↔
      ∃ passes, DequeRuns Q data (dequeSize Q size) passes result) ∧
    (∀ data passes result,
      DequeRuns Q data (dequeSize Q size) passes result → result.2.2 = passes) ∧
    (∀ data, deque Q data (dequeSize Q size) ≠ .error .signedOverflow) ∧
    (∀ buf ubuffer, ∃ result, mywrite Q buf ubuffer size = .ok result) ∧
    ∀ buf room, myread Q buf size room ≠ .error .signedOverflow := by
  have hinv := wellFormed_of_reachable h
  have hnum := hinv.num_nonneg
  have hle := hinv.num_le
  have henque := enqueSize_eq size
  have hdeque := dequeSize_eq hinv size
  refine ⟨⟨by omega, by rw [queSize_eq]; omega⟩, ⟨by omega, by omega⟩,
    fun data => enque_runs hinv size, fun data result => enque_ok_iff_runs,
    fun data passes result => EnqueRuns.returns_passes,
    fun data => deque_runs hinv size, fun data result => deque_ok_iff_runs,
    fun data passes result => DequeRuns.returns_passes,
    fun data hfault => ?_, fun buf ubuffer => mywrite_ok hinv buf ubuffer size,
    fun buf room hfault => ?_⟩
  · cases deque_fault hinv size data hfault
  · cases myread_fault hinv buf size room hfault

def largestRequest : SizeT .lp64 := BitVec.allOnes 64

theorem created_que_largest_request :
    enqueSize largestRequest = 512 ∧
      ∃ passes result,
        EnqueRuns { zeroed with tail := -1 } (List.replicate 512 7) 512 passes result ∧
          enque { zeroed with tail := -1 } (List.replicate 512 7) 512 = .ok result ∧
          result.2 = passes := by
  have hreached : (system .lp64).Reachable { zeroed with tail := -1 } :=
    .init ⟨some zeroed, rfl⟩
  obtain ⟨-, -, hruns, hreturns, hexact, -⟩ :=
    sizes_in_range_and_loops_exact hreached largestRequest
  have hsize : enqueSize largestRequest = 512 := by decide
  rw [hsize] at hruns hreturns hexact
  obtain ⟨passes, result, hrun⟩ :=
    hruns (List.replicate 512 7) (le_of_eq List.length_replicate.symm)
  exact ⟨hsize, passes, result, hrun, (hreturns _ _).mpr ⟨passes, hrun⟩, hexact _ _ _ hrun⟩

end FarsightDriver.Fifo.Sizes
