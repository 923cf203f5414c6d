import FarsightDriver.Exclusive.Basic
import Mathlib.Algebra.BigOperators.Ring.Finset
import Mathlib.Algebra.Order.BigOperators.Group.Finset
import Mathlib.Data.Fintype.Basic

/-!
# Exclusive open with an atomic counter

`avilable` counts down from 1: `myopen` decrements it and takes the decrement
back when it fails.  It succeeds when `atomic_dec_and_test` returns 0, that is
when the decremented value is *not* 0, so the test has the wrong sense.  The
counter is an integer here, as an `atomic_t` is while fewer than `2^31`
decrements are outstanding.
-/

namespace FarsightDriver.Exclusive.Atomic

open FarsightDriver.Foundation

/-- The new value, and 1 if it is 0. -/
def atomicDecAndTest (avilable : Int) : Int × Int :=
  (avilable - 1, if avilable - 1 = 0 then 1 else 0)

def atomicInc (avilable : Int) : Int := avilable + 1

inductive Pc where
  | idle
  | decAndTest
  | incBusy
  | opened
  | closeInc
  deriving DecidableEq, Repr

abbrev State (P : Type*) := Exclusive.State Unit P Pc

variable {P : Type*} [DecidableEq P]

def step (s : State P) (p : P) : Option (State P) :=
  match s.pc p with
  | .idle => some (s.goto p .decAndTest)
  | .decAndTest =>
      let (avilable, zero) := atomicDecAndTest s.avilable
      if 0 = zero then
        some { s.returns p 0 .opened with avilable := avilable }
      else
        some { s.goto p .incBusy with avilable := avilable }
  | .incBusy => some { s.returns p (-ebusy) .idle with avilable := atomicInc s.avilable }
  | .opened => some (s.goto p .closeInc)
  | .closeInc => some { s.returns p 0 .idle with avilable := atomicInc s.avilable }

def system (P : Type*) [DecidableEq P] : System (State P) P where
  init s := s.avilable = 1 ∧ ∀ p, s.pc p = .idle
  step := step

theorem step_others {s next : State P} {p q : P} (hstep : step s p = some next) (hq : q ≠ p) :
    next.pc q = s.pc q := by
  unfold step at hstep
  cases hpc : s.pc p <;> simp only [hpc, Option.some.injEq] at hstep
  case decAndTest =>
    split at hstep <;> cases hstep <;> exact Function.update_of_ne hq _ _
  all_goals
    subst hstep
    exact Function.update_of_ne hq _ _

/-- The device is held from a successful `myopen` to the increment in `myclose`. -/
def Pc.holds : Pc → Bool
  | .opened | .closeInc => true
  | _ => false

def Holds (s : State P) (p : P) : Prop := (s.pc p).holds = true

def Quiescent (s : State P) : Prop := ∀ p, s.pc p = .idle ∨ s.pc p = .opened

def holders [Fintype P] (s : State P) : Finset P :=
  Finset.univ.filter fun p => (s.pc p).holds = true

/-- The call of `p` that starts in `s`, run to its return without interference. -/
def callAlone (s : State P) (p : P) : Nat → Option (State P)
  | 0 => none
  | fuel + 1 =>
      (step s p).bind fun next =>
        if next.pc p = .idle ∨ next.pc p = .opened then some next
        else callAlone next p fuel

def OpenContract [Fintype P] (s : State P) (p : P) : Prop :=
  ∃ next, callAlone s p 3 = some next ∧
    (next.ret p = 0 ↔ holders s = ∅) ∧
    (next.ret p ≠ 0 → next.ret p = -ebusy ∧ next.avilable = s.avilable)

/-! ## The counter -/

/-- The decrements of the counter that a process has outstanding. -/
def Pc.outstanding : Pc → Int
  | .incBusy | .opened | .closeInc => 1
  | _ => 0

variable [Fintype P]

def outstanding (s : State P) : Int := ∑ p, (s.pc p).outstanding

theorem outstanding_goto (s : State P) (p : P) (pc : Pc) :
    outstanding (s.goto p pc) =
      outstanding s - (s.pc p).outstanding + pc.outstanding := by
  have hp := Finset.mem_univ p
  have hsplit := Finset.sum_eq_add_sum_sdiff_singleton_of_mem hp
    fun q => (s.pc q).outstanding
  have hupdate := Finset.sum_update_of_mem hp (fun q => (s.pc q).outstanding)
    pc.outstanding
  rw [← State.map_goto] at hupdate
  beta_reduce at hsplit hupdate
  unfold outstanding
  omega

def Counted (s : State P) : Prop := s.avilable = 1 - outstanding s

theorem Counted.move {s next : State P} {p : P} {pc : Pc} (h : Counted s)
    (hpc : next.pc = (s.goto p pc).pc)
    (havail : next.avilable = s.avilable + (s.pc p).outstanding - pc.outstanding) :
    Counted next := by
  have hgoto := outstanding_goto s p pc
  have hsame : outstanding next = outstanding (s.goto p pc) := by
    unfold outstanding
    rw [hpc]
  unfold Counted at h ⊢
  omega

theorem counted_step {s next : State P} {p : P} (h : Counted s)
    (hstep : step s p = some next) : Counted next := by
  unfold step at hstep
  cases hpc : s.pc p <;> simp only [hpc, Option.some.injEq] at hstep
  case decAndTest =>
    split at hstep <;> cases hstep
    · exact h.move rfl (by simp [atomicDecAndTest, Pc.outstanding, hpc])
    · exact h.move rfl (by simp [atomicDecAndTest, Pc.outstanding, hpc])
  all_goals
    subst hstep
    exact h.move rfl (by simp [atomicInc, State.goto, Pc.outstanding, hpc])

theorem counted_init {s : State P} (hs : (system P).init s) : Counted s := by
  obtain ⟨havail, hidle⟩ := hs
  simp [Counted, outstanding, hidle, havail, Pc.outstanding]

theorem counted_of_reachable {s : State P} (h : (system P).Reachable s) : Counted s :=
  h.invariant Counted (fun _ => counted_init) fun _ _ _ => counted_step

omit [DecidableEq P] in
theorem outstanding_of_quiescent {s : State P} (hquiet : Quiescent s) :
    outstanding s = (holders s).card := by
  rw [outstanding, holders, Finset.natCast_card_filter]
  refine Finset.sum_congr rfl fun p _ => ?_
  rcases hquiet p with hp | hp <;> rw [hp] <;> rfl

/-! ## A call without interference -/

omit [Fintype P] in
theorem callAlone_of_free {s : State P} {p : P} (hp : s.pc p = .idle)
    (havail : s.avilable = 1) :
    ∃ next, callAlone s p 3 = some next ∧ next.ret p = -ebusy ∧
      next.avilable = s.avilable := by
  refine ⟨_, by
    simp [callAlone, step, State.goto, State.returns, hp, havail, atomicDecAndTest]
    rfl, ?_, ?_⟩
  · simp
  · simp [atomicInc, havail]

omit [Fintype P] in
theorem callAlone_of_taken {s : State P} {p : P} (hp : s.pc p = .idle)
    (havail : s.avilable ≠ 1) :
    ∃ next, callAlone s p 3 = some next ∧ next.ret p = 0 := by
  have hdec : s.avilable - 1 ≠ 0 := by omega
  refine ⟨_, by
    simp [callAlone, step, State.goto, State.returns, hp, hdec, atomicDecAndTest]
    rfl, ?_⟩
  simp

omit [DecidableEq P] in
theorem avilable_eq_one_iff {s : State P} (h : Counted s) :
    s.avilable = 1 ↔ holders s = ∅ ∧ ∀ q, s.pc q ≠ .incBusy := by
  have hzero : outstanding s = 0 ↔ ∀ q ∈ Finset.univ, (s.pc q).outstanding = 0 :=
    Finset.sum_eq_zero_iff_of_nonneg fun q _ => by cases s.pc q <;> decide
  have hnone : holders s = ∅ ↔ ∀ q, (s.pc q).holds ≠ true := by
    simp [holders, Finset.filter_eq_empty_iff]
  have hpc (pc : Pc) : pc.outstanding = 0 ↔ pc.holds ≠ true ∧ pc ≠ .incBusy := by
    cases pc <;> decide
  have hcount : s.avilable = 1 ↔ outstanding s = 0 := by
    unfold Counted at h
    omega
  rw [hcount, hzero, hnone, ← forall_and]
  simp only [Finset.mem_univ, true_implies, hpc]

/--
The wrong sense of the test goes unnoticed only while another failed `myopen`
has not yet taken its decrement back.
-/
theorem openContract_iff {s : State P} {p : P} (h : Counted s) (hp : s.pc p = .idle) :
    OpenContract s p ↔ holders s = ∅ ∧ ∃ q, s.pc q = .incBusy := by
  have hone := avilable_eq_one_iff h
  by_cases havail : s.avilable = 1
  · obtain ⟨hempty, hnobody⟩ := hone.mp havail
    obtain ⟨next, hcall, hret, -⟩ := callAlone_of_free hp havail
    constructor
    · rintro ⟨other, hother, hzero, -⟩
      rw [hcall, Option.some.injEq] at hother
      have hret0 := hzero.mpr hempty
      rw [← hother, hret] at hret0
      contradiction
    · rintro ⟨-, q, hq⟩
      exact absurd hq (hnobody q)
  · obtain ⟨next, hcall, hret⟩ := callAlone_of_taken hp havail
    constructor
    · rintro ⟨other, hother, hzero, -⟩
      rw [hcall, Option.some.injEq] at hother
      have hempty := hzero.mp (hother ▸ hret)
      refine ⟨hempty, ?_⟩
      by_contra hnobody
      exact havail (hone.mpr ⟨hempty, not_exists.mp hnobody⟩)
    · rintro ⟨hempty, -⟩
      exact ⟨next, hcall, ⟨fun _ => hempty, fun _ => hret⟩, fun hne => absurd hret hne⟩

/-! ## Exclusion -/

def start : State P := ⟨(), 1, fun _ => .idle, fun _ => 0⟩

omit [Fintype P] in
/--
While `p` stands between its decrement and its increment, `q` succeeds; the
device is then held and every further `myopen` succeeds too.
-/
theorem admits_two {p q : P} (hne : p ≠ q) :
    ∃ s, (system P).run start [p, p, q, q, p, p, p] = some s ∧ Holds s p ∧ Holds s q := by
  refine ⟨_, by
    simp [system, step, start, State.goto, State.returns, atomicDecAndTest, atomicInc,
      hne, hne.symm]
    rfl, ?_, ?_⟩ <;> simp [Holds, Pc.holds, hne.symm]

theorem atomic_open_never (P : Type*) [DecidableEq P] [Fintype P] :
    (∀ s : State P, (system P).Reachable s → Quiescent s →
      s.avilable = 1 - (holders s).card ∧
      ∀ p, s.pc p = .idle → ¬ OpenContract s p) ∧
    (∀ s : State P, (system P).Reachable s → ∀ p, s.pc p = .idle →
      (OpenContract s p ↔ holders s = ∅ ∧ ∃ q, s.pc q = .incBusy)) ∧
    ((∀ s : State P, (system P).Reachable s → ∀ p q, Holds s p → Holds s q → p = q) ↔
      Subsingleton P) := by
  have hcontract : ∀ s : State P, (system P).Reachable s → ∀ p, s.pc p = .idle →
      (OpenContract s p ↔ holders s = ∅ ∧ ∃ q, s.pc q = .incBusy) :=
    fun s hs p hp => openContract_iff (counted_of_reachable hs) hp
  refine ⟨fun s hs hquiet => ⟨?_, fun p hp hopen => ?_⟩, hcontract,
    fun hone => ⟨fun p q => ?_⟩, fun _ s _ p q _ _ => ?_⟩
  · rw [← outstanding_of_quiescent hquiet]
    exact counted_of_reachable hs
  · obtain ⟨-, q, hq⟩ := (hcontract s hs p hp).mp hopen
    rcases hquiet q with hidle | hopened
    · rw [hidle] at hq
      contradiction
    · rw [hopened] at hq
      contradiction
  · by_contra hne
    obtain ⟨s, hrun, hp, hq⟩ := admits_two hne
    have hreach : (system P).Reachable s :=
      System.reachable_of_run ⟨rfl, fun _ => rfl⟩ hrun
    exact hne (hone s hreach p q hp hq)
  · exact Subsingleton.elim p q

theorem atomic_refuses_first_and_admits_two :
    (∃ s, (system (Fin 2)).run start [0, 0, 0] = some s ∧
      s.pc 0 = .idle ∧ s.ret 0 = -ebusy) ∧
    ∃ s, (system (Fin 2)).run start [0, 0, 1, 1, 0, 0, 0] = some s ∧
      (s.pc 0 = .opened ∧ s.ret 0 = 0) ∧ (s.pc 1 = .opened ∧ s.ret 1 = 0) :=
  ⟨⟨_, rfl, rfl, rfl⟩, ⟨_, rfl, ⟨rfl, rfl⟩, ⟨rfl, rfl⟩⟩⟩

/-! ## Runs without a second opener -/

/-- No `myopen` decrements the counter while somebody holds the device. -/
def DecrementsFree (s : State P) (p : P) : Prop :=
  s.pc p = .decAndTest → ∀ q, ¬ Holds s q

omit [Fintype P] in
theorem holds_before {s next : State P} {p : P} (hstep : step s p = some next)
    (hp : Holds next p) : Holds s p ∨ s.pc p = .decAndTest := by
  unfold step at hstep
  cases hpc : s.pc p <;> simp only [hpc, Option.some.injEq] at hstep
  case decAndTest => exact .inr rfl
  case opened => exact .inl (congrArg Pc.holds hpc)
  all_goals
    subst hstep
    simp [Holds, Pc.holds, State.goto, State.returns] at hp

omit [Fintype P] in
theorem exclusive_of_decrementsFree {s : State P}
    (h : (system P).ReachableWith DecrementsFree s) :
    ∀ p q, Holds s p → Holds s q → p = q := by
  induction h with
  | init hinit =>
      intro p q hp
      rw [Holds, hinit.2 p] at hp
      contradiction
  | @step s next a _ hfree hstep ih =>
      have hkept {r : P} (hr : r ≠ a) (hnext : Holds next r) : Holds s r := by
        rwa [Holds, step_others hstep hr] at hnext
      have hmeet {r : P} (hr : r ≠ a) (hnext : Holds next r) (ha : Holds next a) : False := by
        rcases holds_before hstep ha with hheld | htaking
        · exact hr (ih r a (hkept hr hnext) hheld)
        · exact hfree htaking r (hkept hr hnext)
      intro p q hp hq
      by_cases hpa : p = a
      · by_contra hne
        exact hmeet (fun hqa => hne (hpa.trans hqa.symm)) hq (hpa ▸ hp)
      · by_cases hqa : q = a
        · exact (hmeet hpa hp (hqa ▸ hq)).elim
        · exact ih p q (hkept hpa hp) (hkept hqa hq)

omit [Fintype P] in
theorem opens_beside {p q : P} (hne : p ≠ q) :
    ∃ s, (system P).run start [p, p, q, q, p, p, p] = some s ∧
      s.pc p = .opened ∧ s.pc q = .opened := by
  refine ⟨_, by
    simp [system, step, start, State.goto, State.returns, atomicDecAndTest, atomicInc,
      hne, hne.symm]
    rfl, ?_, ?_⟩ <;> simp [hne.symm]

end FarsightDriver.Exclusive.Atomic
