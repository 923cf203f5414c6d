import FarsightDriver.Que.Basic

/-!
# The passes of the queue's loops

The loops of `enque` and `deque` as they stand in the source: a body that is run
under `while(n--)`.  Every call that returns has run the body as many times as the
value that it returns, whatever the queue, the buffer and the size.
-/

namespace FarsightDriver.Que

open FarsightDriver.Foundation

/-! ## The loop of `enque` -/

def storeByte (Q : QUE) (byte : DataT) : Checked QUE := do
  let next ← checkedInt (Q.tail + 1)
  let tail := next.tmod queSize
  let cells ← storeCell Q.data tail byte
  return { Q with data := cells, tail := tail }

/-- The queue, and the caller's bytes from `data` on. -/
def enqueBody : QUE × List DataT → Checked (QUE × List DataT)
  | (_, []) => .error .outOfBounds
  | (Q, byte :: rest) => (storeByte Q byte).map fun Q => (Q, rest)

theorem enqueLoop_cons {n : Int} (hn : n ≠ 0) (Q : QUE) (byte : DataT) (rest : List DataT) :
    enqueLoop Q (byte :: rest) n =
      (checkedInt (n - 1)).bind fun m =>
        (storeByte Q byte).bind fun Q => enqueLoop Q rest m := by
  rw [enqueLoop, if_neg hn]
  simp only [storeByte, bind, Except.bind, pure, Except.pure]
  cases checkedInt (n - 1) with
  | error fault => rfl
  | ok m =>
      cases checkedInt (Q.tail + 1) with
      | error fault => rfl
      | ok next =>
          dsimp only
          cases storeCell Q.data (next.tmod queSize) byte <;> rfl

theorem countdown_of_enqueLoop {Q Q' : QUE} {data : List DataT} {n : Int}
    (h : enqueLoop Q data n = .ok Q') :
    ∃ passes rest, Countdown enqueBody n (Q, data) passes (Q', rest) := by
  induction data generalizing Q n with
  | nil =>
      by_cases hn : n = 0
      · subst hn
        rw [enqueLoop_zero, Except.ok.injEq] at h
        exact ⟨0, [], h ▸ .done _⟩
      · rw [enqueLoop, if_neg hn] at h
        cases h
  | cons byte rest ih =>
      by_cases hn : n = 0
      · subst hn
        rw [enqueLoop_zero, Except.ok.injEq] at h
        exact ⟨0, byte :: rest, h ▸ .done _⟩
      · rw [enqueLoop_cons hn] at h
        obtain ⟨m, hpred, h⟩ := bind_eq_ok.mp h
        obtain ⟨Q₁, hstore, hloop⟩ := bind_eq_ok.mp h
        obtain ⟨passes, rest', hends⟩ := ih hloop
        have hbody : enqueBody (Q, byte :: rest) = .ok (Q₁, rest) := by
          rw [enqueBody, hstore]
          rfl
        exact ⟨passes + 1, rest', .pass hn hpred hbody hends⟩

theorem enqueLoop_of_countdown {s t : QUE × List DataT} {n : Int} {passes : Nat}
    (h : Countdown enqueBody n s passes t) : enqueLoop s.1 s.2 n = .ok t.1 := by
  induction h with
  | done s => exact enqueLoop_zero s.1 s.2
  | @pass n m s s' t passes hn hpred hbody rest ih =>
      obtain ⟨Q, data⟩ := s
      cases data with
      | nil => cases hbody
      | cons byte data =>
          rw [enqueLoop_cons hn, hpred]
          cases hstore : storeByte Q byte with
          | error fault =>
              rw [enqueBody, hstore] at hbody
              cases hbody
          | ok Q₁ =>
              rw [enqueBody, hstore] at hbody
              cases hbody
              exact ih

/-! ## The loop of `deque` -/

def takeByte (Q : QUE) : Checked (QUE × DataT) := do
  let byte ← loadCell Q.data Q.head
  let next ← checkedInt (Q.head + 1)
  return ({ Q with head := next.tmod queSize }, byte)

/-- The queue, the bytes stored so far, and the caller's buffer from `data` on. -/
def dequeBody : QUE × List DataT × List DataT → Checked (QUE × List DataT × List DataT)
  | (_, _, []) => .error .outOfBounds
  | (Q, stored, _ :: rest) =>
      (takeByte Q).map fun result => (result.1, stored ++ [result.2], rest)

theorem dequeLoop_cons {n : Int} (hn : n ≠ 0) (Q : QUE) (cell : DataT) (rest : List DataT) :
    dequeLoop Q (cell :: rest) n =
      (checkedInt (n - 1)).bind fun m =>
        (takeByte Q).bind fun taken =>
          (dequeLoop taken.1 rest m).bind fun result => .ok (result.1, taken.2 :: result.2) := by
  rw [dequeLoop, if_neg hn]
  simp only [takeByte, bind, Except.bind, pure, Except.pure]
  cases checkedInt (n - 1) with
  | error fault => rfl
  | ok m =>
      cases loadCell Q.data Q.head with
      | error fault => rfl
      | ok byte =>
          dsimp only
          cases checkedInt (Q.head + 1) <;> rfl

theorem countdown_of_dequeLoop {Q Q' : QUE} {data data' : List DataT} {n : Int}
    (h : dequeLoop Q data n = .ok (Q', data')) (front : List DataT) :
    ∃ passes stored rest, Countdown dequeBody n (Q, front, data) passes (Q', stored, rest) ∧
      stored ++ rest = front ++ data' := by
  induction data generalizing Q n front data' with
  | nil =>
      by_cases hn : n = 0
      · subst hn
        rw [dequeLoop_zero, Except.ok.injEq] at h
        cases h
        exact ⟨0, front, [], .done _, rfl⟩
      · rw [dequeLoop, if_neg hn] at h
        cases h
  | cons cell rest ih =>
      by_cases hn : n = 0
      · subst hn
        rw [dequeLoop_zero, Except.ok.injEq] at h
        cases h
        exact ⟨0, front, cell :: rest, .done _, rfl⟩
      · rw [dequeLoop_cons hn] at h
        obtain ⟨m, hpred, h⟩ := bind_eq_ok.mp h
        obtain ⟨⟨Q₁, byte⟩, htake, h⟩ := bind_eq_ok.mp h
        obtain ⟨⟨Q₂, data₂⟩, hloop, h⟩ := bind_eq_ok.mp h
        cases h
        obtain ⟨passes, stored, rest', hends, hdata⟩ := ih hloop (front ++ [byte])
        have hbody : dequeBody (Q, front, cell :: rest) = .ok (Q₁, front ++ [byte], rest) := by
          rw [dequeBody, htake]
          rfl
        refine ⟨passes + 1, stored, rest', .pass hn hpred hbody hends, ?_⟩
        rw [hdata, List.append_assoc]
        rfl

theorem dequeLoop_of_countdown {s t : QUE × List DataT × List DataT} {n : Int} {passes : Nat}
    (h : Countdown dequeBody n s passes t) :
    ∃ data', dequeLoop s.1 s.2.2 n = .ok (t.1, data') ∧ s.2.1 ++ data' = t.2.1 ++ t.2.2 := by
  induction h with
  | done s => exact ⟨s.2.2, dequeLoop_zero s.1 s.2.2, rfl⟩
  | @pass n m s s' t passes hn hpred hbody rest ih =>
      obtain ⟨Q, stored, data⟩ := s
      cases data with
      | nil => cases hbody
      | cons cell data =>
          cases htake : takeByte Q with
          | error fault =>
              rw [dequeBody, htake] at hbody
              cases hbody
          | ok taken =>
              rw [dequeBody, htake] at hbody
              cases hbody
              obtain ⟨data', hloop, hdata⟩ := ih
              refine ⟨taken.2 :: data', ?_, ?_⟩
              · rw [dequeLoop_cons hn, hpred, htake]
                simp only [Except.bind]
                rw [hloop]
              · rw [← hdata, List.append_assoc]
                rfl

/-! ## Whole calls -/

/-- `enque` returns that result, after so many passes of its loop. -/
inductive EnqueRuns (Q : QUE) (data : List DataT) (size : Int) : Nat → QUE × Int → Prop
  | full (hfull : isfullQue Q = true) : EnqueRuns Q data size 0 (Q, 0)
  | loop {free n num : Int} {Q' : QUE} {rest : List DataT} {passes : Nat}
      (hroom : isfullQue Q = false) (hfree : checkedInt (queSize - Q.num) = .ok free)
      (hn : n = if size < free then size else free)
      (hloop : Countdown enqueBody n (Q, data) passes (Q', rest))
      (hnum : checkedInt (Q'.num + n) = .ok num) :
      EnqueRuns Q data size passes ({ Q' with num := num }, n)

/-- `deque` returns that result, after so many passes of its loop. -/
inductive DequeRuns (Q : QUE) (data : List DataT) (size : Int) :
    Nat → QUE × List DataT × Int → Prop
  | loop {n num : Int} {Q' : QUE} {stored rest : List DataT} {passes : Nat}
      (hn : n = if size < Q.num then size else Q.num)
      (hloop : Countdown dequeBody n (Q, [], data) passes (Q', stored, rest))
      (hnum : checkedInt (Q'.num - n) = .ok num) :
      DequeRuns Q data size passes ({ Q' with num := num }, stored ++ rest, n)

theorem enque_ok_iff_runs {Q : QUE} {data : List DataT} {size : Int} {result : QUE × Int} :
    enque Q data size = .ok result ↔ ∃ passes, EnqueRuns Q data size passes result := by
  constructor
  · intro h
    unfold enque at h
    cases hfull : isfullQue Q with
    | true =>
        rw [hfull, if_pos rfl, Except.ok.injEq] at h
        exact ⟨0, h ▸ .full hfull⟩
    | false =>
        rw [hfull, if_neg Bool.false_ne_true] at h
        obtain ⟨free, hfree, h⟩ := bind_eq_ok.mp h
        obtain ⟨Q', hloop, h⟩ := bind_eq_ok.mp h
        obtain ⟨num, hnum, h⟩ := bind_eq_ok.mp h
        obtain ⟨passes, rest, hends⟩ := countdown_of_enqueLoop hloop
        cases h
        exact ⟨passes, .loop hfull hfree rfl hends hnum⟩
  · rintro ⟨passes, hruns⟩
    cases hruns with
    | full hfull => rw [enque, if_pos hfull]
    | loop hroom hfree hn hloop hnum =>
        subst hn
        rw [enque, hroom, if_neg Bool.false_ne_true]
        refine bind_eq_ok.mpr ⟨_, hfree, bind_eq_ok.mpr ⟨_, enqueLoop_of_countdown hloop, ?_⟩⟩
        exact bind_eq_ok.mpr ⟨_, hnum, rfl⟩

theorem deque_ok_iff_runs {Q : QUE} {data : List DataT} {size : Int}
    {result : QUE × List DataT × Int} :
    deque Q data size = .ok result ↔ ∃ passes, DequeRuns Q data size passes result := by
  constructor
  · intro h
    unfold deque at h
    obtain ⟨⟨Q', data'⟩, hloop, h⟩ := bind_eq_ok.mp h
    obtain ⟨num, hnum, h⟩ := bind_eq_ok.mp h
    obtain ⟨passes, stored, rest, hends, hdata⟩ := countdown_of_dequeLoop hloop []
    cases h
    rw [List.nil_append] at hdata
    subst hdata
    exact ⟨passes, .loop rfl hends hnum⟩
  · rintro ⟨passes, hruns⟩
    cases hruns with
    | loop hn hloop hnum =>
        subst hn
        obtain ⟨data', hcall, hdata⟩ := dequeLoop_of_countdown hloop
        rw [List.nil_append] at hdata
        subst hdata
        exact bind_eq_ok.mpr ⟨_, hcall, bind_eq_ok.mpr ⟨_, hnum, rfl⟩⟩

theorem EnqueRuns.returns_passes {Q : QUE} {data : List DataT} {size : Int} {passes : Nat}
    {result : QUE × Int} (h : EnqueRuns Q data size passes result) : result.2 = passes := by
  cases h with
  | full hfull => rfl
  | loop hroom hfree hn hloop hnum => exact hloop.start_eq

theorem DequeRuns.returns_passes {Q : QUE} {data : List DataT} {size : Int} {passes : Nat}
    {result : QUE × List DataT × Int} (h : DequeRuns Q data size passes result) :
    result.2.2 = passes := by
  cases h with
  | loop hn hloop hnum => exact hloop.start_eq

end FarsightDriver.Que
