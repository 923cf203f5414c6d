import FarsightDriver.Fifo.Blocking
import FarsightDriver.Foundation.WaitQueue

/-!
# No lost wake-up

Readers in `wait_event` and pollers follow the discipline of a wait queue whose
condition is that the queue holds data: they register before they look, and
`mywrite` calls `wake_up` after its `enque`.
-/

namespace FarsightDriver.Fifo.Blocking

open FarsightDriver.Foundation
open FarsightDriver.Que

variable {model : DataModel} {P : Type*} [DecidableEq P]

def Pc.phase : Pc model → WaitQueue.Phase
  | .readTest _ | .pollTest => .checking
  | .readSleep _ | .pollSleep => .asleep
  | .writeWakeUp _ => .raised
  | _ => .out

def State.waiters (s : State model P) : WaitQueue.State P where
  condition := getQueNum s.que != 0
  registered := s.registered
  runnable := s.runnable
  phase p := (s.pc p).phase

def Asleep : Pc model → Prop
  | .readSleep _ | .pollSleep => True
  | _ => False

def BeforeWakeUp : Pc model → Prop
  | .writeWakeUp _ => True
  | _ => False

def waitAction (s : State model P) (label : P × Input model) : WaitQueue.Action P :=
  let (p, input) := label
  let after := (step s label).any fun next => next.waiters.condition
  match s.pc p, input with
  | .readPrepare _, _ | .pollPrepare, _ => .prepare p
  | .readTest _, _ | .pollTest, _ => if getQueNum s.que = 0 then .sleep p else .leave p
  | .readSleep _, _ => .resume p
  | .pollSleep, .timeout => .leave p
  | .pollSleep, _ => .resume p
  | .readDeque _ _, _ => .lower after
  | .writeEnque _ _, _ => .raise p after
  | .writeWakeUp _, _ => .wake p
  | _, _ => .skip

/-! ## Steps as actions on the wait queue -/

variable {s next : State model P} {p : P} {pc : Pc model}

theorem phase_goto (s : State model P) (p : P) (pc : Pc model) :
    (fun q => ((s.goto p pc).pc q).phase) =
      Function.update (fun q => (s.pc q).phase) p pc.phase :=
  Function.comp_update Pc.phase s.pc p pc

theorem waiters_goto (s : State model P) (p : P) (pc : Pc model) :
    (s.goto p pc).waiters = s.waiters.move p pc.phase := by
  simp only [State.waiters, phase_goto, WaitQueue.State.move]
  rfl

theorem waiters_stay (hsame : (s.pc p).phase = pc.phase) :
    (s.goto p pc).waiters = s.waiters := by
  rw [waiters_goto]
  exact WaitQueue.State.move_self _ hsame

theorem waiters_prepareToWait (hpc : pc.phase = .checking) :
    (s.prepareToWait p pc).waiters = s.waiters.prepare p := by
  have hgoto := waiters_goto s p pc
  rw [hpc] at hgoto
  unfold WaitQueue.State.prepare
  rw [← hgoto]
  rfl

theorem waiters_finishWait (s : State model P) (p : P) (pc : Pc model)
    (hpc : pc.phase = .out) :
    ((s.goto p pc).finishWait p).waiters = s.waiters.leave p := by
  have hgoto := waiters_goto s p pc
  rw [hpc] at hgoto
  unfold WaitQueue.State.leave
  rw [← hgoto]
  rfl

theorem waiters_wakeUp (totalsize : Int) :
    (s.wakeUp.returns p totalsize).waiters = s.waiters.wake p := by
  have hgoto := waiters_goto s p (.idle : Pc model)
  unfold WaitQueue.State.wake
  rw [show WaitQueue.Phase.out = (Pc.idle : Pc model).phase from rfl, ← hgoto]
  rfl

theorem waiters_queue (hpc : next.pc = (s.goto p pc).pc)
    (hreg : next.registered = s.registered) (hrun : next.runnable = s.runnable) :
    next.waiters =
      { s.waiters.move p pc.phase with condition := next.waiters.condition } := by
  rw [← waiters_goto]
  simp only [State.waiters, hpc, hreg, hrun]
  rfl

omit [DecidableEq P] in
theorem condition_iff (s : State model P) :
    s.waiters.condition = true ↔ s.que.num ≠ 0 := by
  simp [State.waiters, getQueNum]

theorem condition_of_deque (h : Inv s) {args : ReadArgs model} {totalsize : Int}
    (hp : s.pc p = .readDeque args totalsize) (hstep : s.deque p args totalsize = some next)
    (hcond : next.waiters.condition = true) : s.waiters.condition = true := by
  obtain ⟨Q, removed, -, hwf, hcontents, rfl⟩ := deque_some h hp hstep
  rw [condition_iff] at hcond ⊢
  intro hzero
  have hlength := contents_length s.que
  have hleft := contents_length Q
  have hnum := hwf.num_nonneg
  rw [hcontents, List.length_drop] at hleft
  simp only at hcond
  omega

theorem abstract_step (h : Inv s) {input : Input model}
    (hstep : step s (p, input) = some next) :
    (WaitQueue.system P).step s.waiters (waitAction s (p, input)) = some next.waiters := by
  have hskip {old pc : Pc model} (hp : s.pc p = old) (hsame : old.phase = pc.phase) :
      (WaitQueue.system P).step s.waiters .skip = some (s.goto p pc).waiters := by
    rw [waiters_stay ((congrArg Pc.phase hp).trans hsame)]
    rfl
  have hafter : ((step s (p, input)).any fun next => next.waiters.condition) =
      next.waiters.condition := by
    rw [hstep]
    rfl
  cases hp : s.pc p <;> cases input <;>
    simp only [step, hp, reduceCtorEq, Option.some.injEq, Option.ite_none_right_eq_some]
      at hstep <;>
    simp only [waitAction, hp, hafter]
  case idle.write =>
    obtain ⟨⟨buf, uncopied⟩, -, rfl⟩ := Option.map_eq_some_iff.mp hstep
    simp only
    by_cases hall : uncopied ≠ 0
    · rw [if_pos hall]
      exact @hskip _ .idle hp rfl
    · rw [if_neg hall]
      exact hskip hp rfl
  case readPrepare.tick | pollPrepare.tick =>
    subst hstep
    rw [waiters_prepareToWait rfl]
    exact if_pos (congrArg Pc.phase hp)
  case readTest.tick =>
    subst hstep
    by_cases hnum : getQueNum s.que = 0
    · rw [if_pos hnum, if_neg (not_not.mpr hnum.symm), waiters_goto]
      exact if_pos ⟨congrArg Pc.phase hp, by simp [State.waiters, hnum]⟩
    · rw [if_neg hnum, if_pos (Ne.symm hnum), waiters_finishWait s p _ rfl]
      exact if_pos (.inl (congrArg Pc.phase hp))
  case pollTest.tick =>
    subst hstep
    by_cases hnum : getQueNum s.que = 0
    · rw [if_pos hnum, if_neg (not_not.mpr hnum), waiters_goto]
      exact if_pos ⟨congrArg Pc.phase hp, by simp [State.waiters, hnum]⟩
    · rw [if_neg hnum, if_pos hnum]
      have hleave := waiters_finishWait s p .idle rfl
      exact (if_pos (.inl (congrArg Pc.phase hp))).trans (congrArg some hleave.symm)
  case readSleep.tick | pollSleep.tick =>
    obtain ⟨hrun, rfl⟩ := hstep
    rw [waiters_goto]
    exact if_pos ⟨congrArg Pc.phase hp, hrun⟩
  case pollSleep.timeout =>
    subst hstep
    have hleave := waiters_finishWait s p .idle rfl
    exact (if_pos (.inr (congrArg Pc.phase hp))).trans (congrArg some hleave.symm)
  case readDeque.tick args totalsize =>
    have hlower := condition_of_deque h hp hstep
    obtain ⟨pc, hpc, hout, hreg, hrun⟩ : ∃ pc, next.pc = (s.goto p pc).pc ∧
        pc.phase = .out ∧ next.registered = s.registered ∧ next.runnable = s.runnable := by
      obtain ⟨Q, removed, -, -, -, rfl⟩ := deque_some h hp hstep
      exact ⟨_, rfl, by split <;> rfl, rfl, rfl⟩
    rw [waiters_queue hpc hreg hrun, WaitQueue.State.move_self]
    · exact if_pos hlower
    · exact (congrArg Pc.phase hp).trans hout.symm
  case writeEnque.tick =>
    obtain ⟨totalsize, hpc, hreg, hrun⟩ : ∃ totalsize,
        next.pc = (s.goto p (.writeWakeUp totalsize)).pc ∧
        next.registered = s.registered ∧ next.runnable = s.runnable := by
      obtain ⟨⟨Q, totalsize⟩, -, rfl⟩ := Option.map_eq_some_iff.mp hstep
      exact ⟨totalsize, rfl, rfl, rfl⟩
    rw [waiters_queue hpc hreg hrun]
    exact if_pos (congrArg Pc.phase hp)
  case writeWakeUp.tick =>
    subst hstep
    rw [waiters_wakeUp]
    exact if_pos (congrArg Pc.phase hp)
  case readCopy.tick =>
    obtain ⟨⟨copied, uncopied⟩, -, rfl⟩ := Option.map_eq_some_iff.mp hstep
    exact @hskip _ .idle hp rfl
  case readCompare.tick =>
    subst hstep
    exact hskip hp (by split <;> rfl)
  all_goals
    subst hstep
    exact hskip hp rfl

def wakeupSimulation : System.Simulation (system model P) (fun _ _ => True)
    (WaitQueue.system P) (fun _ _ => True) where
  inv := Inv
  abs := State.waiters
  label := waitAction
  init s hs := by
    refine ⟨inv_init hs, fun p => ?_⟩
    simp only [State.waiters, hs.2.2.2 p]
    rfl
  step _ _ _ h _ hstep := ⟨inv_of_effect h (step_effect h hstep), trivial, abstract_step h hstep⟩

omit [DecidableEq P] in
theorem asleep_iff (pc : Pc model) : Asleep pc ↔ pc.phase = .asleep := by
  cases pc <;> simp [Asleep, Pc.phase]

omit [DecidableEq P] in
theorem beforeWakeUp_iff (pc : Pc model) : BeforeWakeUp pc ↔ pc.phase = .raised := by
  cases pc <;> simp [BeforeWakeUp, Pc.phase]

theorem no_lost_wakeup {s : State model P} (h : (system model P).Reachable s)
    (hdata : getQueNum s.que ≠ 0) :
    (∀ p, Asleep (s.pc p) → s.runnable p = true) ∨ ∃ w, BeforeWakeUp (s.pc w) := by
  have hsound := WaitQueue.sound_of_reachable (wakeupSimulation.reachable h)
  rcases hsound.no_lost_wakeup ((condition_iff s).mpr hdata) with hrun | ⟨w, hw⟩
  · left
    intro p hp
    exact hrun p ((asleep_iff _).mp hp)
  · right
    exact ⟨w, (beforeWakeUp_iff _).mpr hw⟩

/-- Reader 0 falls asleep, then writer 1 makes its `enque`. -/
def sleepThenEnque : List (Fin 2 × Input .ilp32) :=
  [(0, .read ⟨4, blankBuf, [], 4⟩), (0, .tick), (0, .tick),
    (1, .write blankBuf [7] 1), (1, .tick)]

theorem sleeping_reader_is_served :
    ∃ s, (system .ilp32 (Fin 2)).run created sleepThenEnque = some s ∧
      getQueNum s.que = 1 ∧
      ((∀ p, Asleep (s.pc p) → s.runnable p = true) ∨ ∃ w, BeforeWakeUp (s.pc w)) := by
  have hnum : ((system .ilp32 (Fin 2)).run created sleepThenEnque).map
      (fun s => getQueNum s.que) = some 1 := by
    decide +kernel
  obtain ⟨s, hrun, hone⟩ := Option.map_eq_some_iff.mp hnum
  exact ⟨s, hrun, hone,
    no_lost_wakeup (System.reachable_of_run created_init hrun) (by rw [hone]; decide)⟩

end FarsightDriver.Fifo.Blocking
