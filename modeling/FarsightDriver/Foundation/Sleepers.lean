import FarsightDriver.Foundation.WaitQueue

/-!
# Waiting, step by step

A system may describe a wait by one program point that is left when a condition
holds.  Here the wait is taken apart: a process registers on a wait queue, looks
at the condition and goes to sleep, and wakes when it is made runnable; whoever
raises the condition wakes the registered ones in a later step.  What the system
says is kept, and nobody sleeps through the condition.
-/

namespace FarsightDriver.Foundation.Sleepers

/-- What a step does to the waits. -/
inductive Effect (P : Type*) where
  | enter (p : P)
  | leave (p : P)
  | interrupt (p : P)
  | raise
  | afterWake
  | other

/-- Where a waiting process is.  `first` is the look at the condition before registering. -/
inductive Place where
  | first
  | prepare
  | test
  | asleep
  deriving DecidableEq, Repr

variable {σ α P : Type*} [DecidableEq P]

def Effect.after (effect : Effect P) (waiting : P → Bool) : P → Bool :=
  match effect with
  | .enter p => Function.update waiting p true
  | .leave p | .interrupt p => Function.update waiting p false
  | _ => waiting

/-- Only a step that raises makes the condition true. -/
structure Waits (S : System σ α) (P : Type*) [DecidableEq P] where
  condition : σ → Bool
  waiting : σ → P → Bool
  effect : σ → α → Effect P
  waiting_after : ∀ {s a next}, S.step s a = some next →
    waiting next = (effect s a).after (waiting s)
  enters : ∀ {s a next p}, S.step s a = some next → effect s a = .enter p →
    waiting s p = false ∧ condition next = condition s
  leaves : ∀ {s a next p}, S.step s a = some next →
    effect s a = .leave p ∨ effect s a = .interrupt p →
    waiting s p = true ∧ condition next = condition s
  lowers : ∀ {s a next}, S.step s a = some next →
    effect s a = .afterWake ∨ effect s a = .other →
    condition next = true → condition s = true
  init : ∀ {s}, S.init s → ∀ p, waiting s p = false

structure State (σ P : Type*) where
  base : σ
  place : P → Place
  registered : P → Bool
  runnable : P → Bool
  waking : Bool

inductive Label (α P : Type*) where
  | base (a : α)
  | start (p : P)
  | prepare (p : P)
  | sleep (p : P)
  | resume (p : P)
  | wakeUp

variable {S : System σ α} (W : Waits S P)

def State.goto (s : State σ P) (p : P) (place : Place) : State σ P :=
  { s with place := Function.update s.place p place }

def State.prepare (s : State σ P) (p : P) : State σ P :=
  { s.goto p .test with
    registered := Function.update s.registered p true
    runnable := Function.update s.runnable p false }

def Place.Tests (place : Place) : Prop := place = .first ∨ place = .test

instance (place : Place) : Decidable place.Tests := inferInstanceAs (Decidable (_ ∨ _))

/-- The wait ends at a test of the condition, and a signal ends it once the process has
registered. -/
def Allowed (s : State σ P) : Effect P → Prop
  | .leave p => (s.place p).Tests
  | .interrupt p => s.place p = .test ∨ s.place p = .asleep
  | .raise | .afterWake => s.waking = false
  | .enter _ | .other => True

instance (s : State σ P) : (effect : Effect P) → Decidable (Allowed s effect)
  | .leave _ => inferInstanceAs (Decidable (Place.Tests _))
  | .interrupt _ => inferInstanceAs (Decidable (_ ∨ _))
  | .raise | .afterWake => inferInstanceAs (Decidable (_ = _))
  | .enter _ | .other => .isTrue trivial

def State.record (s : State σ P) (base : σ) : Effect P → State σ P
  | .enter p => { s.goto p .first with base := base }
  | .leave p | .interrupt p =>
      { s with
        base := base
        registered :=
          if s.place p = .first then s.registered else Function.update s.registered p false }
  | .raise => { s with base := base, waking := true }
  | .afterWake | .other => { s with base := base }

def step (s : State σ P) : Label α P → Option (State σ P)
  | .base a =>
      if Allowed s (W.effect s.base a) then
        (S.step s.base a).map fun base => s.record base (W.effect s.base a)
      else none
  | .start p =>
      if W.waiting s.base p = true ∧ s.place p = .first ∧ W.condition s.base = false then
        some (s.goto p .prepare)
      else none
  | .prepare p =>
      if W.waiting s.base p = true ∧ s.place p = .prepare then some (s.prepare p)
      else none
  | .sleep p =>
      if W.waiting s.base p = true ∧ s.place p = .test ∧ W.condition s.base = false then
        some (s.goto p .asleep)
      else none
  | .resume p =>
      if W.waiting s.base p = true ∧ s.place p = .asleep ∧ s.runnable p = true then
        some (s.goto p .prepare)
      else none
  | .wakeUp =>
      if s.waking then
        some { s with runnable := fun q => s.runnable q || s.registered q, waking := false }
      else none

def system : System (State σ P) (Label α P) where
  init s := S.init s.base ∧ s.waking = false
  step := step W

/-! ## The wait queue -/

def phaseOf (waiting : Bool) (place : Place) : WaitQueue.Phase :=
  match waiting, place with
  | false, _ | true, .first | true, .prepare => .out
  | true, .test => .checking
  | true, .asleep => .asleep

/-- The one that raises and wakes is a process of its own. -/
def State.waiters (s : State σ P) : WaitQueue.State (Option P) where
  condition := W.condition s.base
  registered q := q.elim false s.registered
  runnable q := q.elim false s.runnable
  phase q := q.elim (if s.waking then .raised else .out) fun p =>
    phaseOf (W.waiting s.base p) (s.place p)

variable {W} {s next : State σ P}

theorem elim_update {β : Type*} (own : β) (f : P → β) (p : P) (value : β) :
    (fun q : Option P => q.elim own (Function.update f p value)) =
      Function.update (fun q : Option P => q.elim own f) (some p) value := by
  funext q
  cases q with
  | none => rfl
  | some q =>
      by_cases hq : q = p
      · subst hq
        simp
      · simp [hq]

/-- The phases when only `p` has moved. -/
theorem phase_update {waiting waiting' : P → Bool} {place place' : P → Place} {p : P}
    {own phase : WaitQueue.Phase} (hself : phaseOf (waiting' p) (place' p) = phase)
    (hothers : ∀ q, q ≠ p → waiting' q = waiting q ∧ place' q = place q) :
    (fun q : Option P => q.elim own fun q => phaseOf (waiting' q) (place' q)) =
      Function.update (fun q : Option P => q.elim own fun q => phaseOf (waiting q) (place q))
        (some p) phase := by
  rw [← elim_update]
  funext q
  cases q with
  | none => rfl
  | some q =>
      by_cases hq : q = p
      · subst hq
        simp [hself]
      · obtain ⟨hwaiting, hplace⟩ := hothers q hq
        simp [hq, hwaiting, hplace]

theorem phase_some (s : State σ P) (p : P) :
    (s.waiters W).phase (some p) = phaseOf (W.waiting s.base p) (s.place p) := rfl

theorem waiters_goto (s : State σ P) {p : P} (place : Place) (hp : W.waiting s.base p = true) :
    (s.goto p place).waiters W = (s.waiters W).move (some p) (phaseOf true place) := by
  simp only [State.waiters, WaitQueue.State.move, State.goto]
  congr 1
  refine phase_update ?_ fun q hq => ⟨rfl, Function.update_of_ne hq _ _⟩
  rw [hp, Function.update_self]

/-- Each step is one of the wait queue. -/
def action (W : Waits S P) (s : State σ P) (label : Label α P) : WaitQueue.Action (Option P) :=
  let after := (step W s label).any fun next => W.condition next.base
  match label with
  | .base a =>
      match W.effect s.base a with
      | .enter _ => .skip
      | .leave p | .interrupt p => if s.place p = .first then .skip else .leave (some p)
      | .raise => .raise none after
      | .afterWake | .other => .lower after
  | .start _ => .skip
  | .prepare p => .prepare (some p)
  | .sleep p => .sleep (some p)
  | .resume p => .resume (some p)
  | .wakeUp => .wake none

theorem waiters_same {next : State σ P} (hcondition : W.condition next.base = W.condition s.base)
    (hphase : ∀ p, phaseOf (W.waiting next.base p) (next.place p) =
      phaseOf (W.waiting s.base p) (s.place p))
    (hregistered : next.registered = s.registered) (hrunnable : next.runnable = s.runnable)
    (hwaking : next.waking = s.waking) : next.waiters W = s.waiters W := by
  simp only [State.waiters, hcondition, hregistered, hrunnable, hwaking, hphase]

theorem action_enter {a : α} {base : σ} {p : P} (heffect : W.effect s.base a = .enter p)
    (hbase : S.step s.base a = some base) :
    (s.record base (.enter p)).waiters W = s.waiters W := by
  obtain ⟨hout, hcondition⟩ := W.enters hbase heffect
  have hwaiting := W.waiting_after hbase
  rw [heffect] at hwaiting
  refine waiters_same hcondition (fun q => ?_) rfl rfl rfl
  simp only [State.record, State.goto, hwaiting, Effect.after]
  by_cases hq : q = p
  · subst hq
    simp [phaseOf, hout]
  · simp [hq]

theorem action_leave {a : α} {base : σ} {p : P}
    (heffect : W.effect s.base a = .leave p ∨ W.effect s.base a = .interrupt p)
    (hplace : (s.place p).Tests ∨ s.place p = .asleep) (hbase : S.step s.base a = some base) :
    (WaitQueue.system (Option P)).step (s.waiters W)
        (if s.place p = .first then .skip else .leave (some p)) =
      some ((s.record base (.leave p)).waiters W) := by
  obtain ⟨hin, hcondition⟩ := W.leaves hbase heffect
  have hwaiting : W.waiting base = Function.update (W.waiting s.base) p false := by
    rw [W.waiting_after hbase]
    rcases heffect with heffect | heffect <;> rw [heffect] <;> rfl
  by_cases hfirst : s.place p = .first
  · rw [if_pos hfirst]
    have hsame : (s.record base (.leave p)).waiters W = s.waiters W := by
      refine waiters_same hcondition (fun q => ?_) (if_pos hfirst) rfl rfl
      by_cases hq : q = p
      · subst hq
        simp [State.record, hwaiting, hin, hfirst, phaseOf]
      · simp [State.record, hwaiting, hq]
    exact congrArg some hsame.symm
  · have hphase : (s.waiters W).phase (some p) = .checking ∨
        (s.waiters W).phase (some p) = .asleep := by
      rw [phase_some, hin]
      rcases hplace with (htest | htest) | hasleep
      · exact absurd htest hfirst
      · exact .inl (by rw [htest]; rfl)
      · exact .inr (by rw [hasleep]; rfl)
    rw [if_neg hfirst]
    refine (if_pos hphase).trans (congrArg some ?_)
    simp only [State.waiters, State.record, WaitQueue.State.leave, WaitQueue.State.move,
      hcondition, if_neg hfirst]
    congr 1
    · exact (elim_update _ _ _ _).symm
    · refine (phase_update ?_ fun q hq => ⟨?_, rfl⟩).symm
      · rw [hwaiting, Function.update_self]
        rfl
      · rw [hwaiting, Function.update_of_ne hq]

theorem action_kept {a : α} {base : σ} (hbase : S.step s.base a = some base)
    (heffect : W.effect s.base a = .raise ∨ W.effect s.base a = .afterWake ∨
      W.effect s.base a = .other) : W.waiting base = W.waiting s.base := by
  rw [W.waiting_after hbase]
  rcases heffect with heffect | heffect | heffect <;> rw [heffect] <;> rfl

theorem step_base {a : α} {next : State σ P} (hstep : step W s (.base a) = some next) :
    Allowed s (W.effect s.base a) ∧ ∃ base, S.step s.base a = some base ∧
      next = s.record base (W.effect s.base a) := by
  simp only [step, Option.ite_none_right_eq_some] at hstep
  obtain ⟨hallowed, hstep⟩ := hstep
  obtain ⟨base, hbase, rfl⟩ := Option.map_eq_some_iff.mp hstep
  exact ⟨hallowed, base, hbase, rfl⟩

theorem record_base (s : State σ P) (base : σ) (effect : Effect P) :
    (s.record base effect).base = base := by
  cases effect <;> rfl

theorem action_base {a : α} {next : State σ P} (hstep : step W s (.base a) = some next) :
    (WaitQueue.system (Option P)).step (s.waiters W) (action W s (.base a)) =
      some (next.waiters W) := by
  have hafter : (step W s (.base a)).any (fun next => W.condition next.base) =
      W.condition next.base := by
    rw [hstep]
    rfl
  obtain ⟨hallowed, base, hbase, rfl⟩ := step_base hstep
  simp only [action, hafter, record_base]
  cases heffect : W.effect s.base a with
  | enter p =>
      rw [action_enter heffect hbase]
      rfl
  | leave p =>
      rw [heffect] at hallowed
      exact action_leave (.inl heffect) (.inl hallowed) hbase
  | interrupt p =>
      rw [heffect] at hallowed
      exact action_leave (.inr heffect) (hallowed.imp .inr id) hbase
  | raise =>
      rw [heffect] at hallowed
      have hkept := action_kept hbase (.inl heffect)
      have hphase : (s.waiters W).phase none = .out := by
        change (if s.waking then _ else _) = _
        rw [show s.waking = false from hallowed]
        rfl
      refine (if_pos hphase).trans (congrArg some ?_)
      simp only [State.waiters, State.record, WaitQueue.State.move, hkept]
      congr 1
      funext q
      cases q <;> simp
  | afterWake =>
      have hkept := action_kept hbase (.inr (.inl heffect))
      refine (if_pos (W.lowers hbase (.inl heffect))).trans (congrArg some ?_)
      simp only [State.waiters, State.record, hkept]
      rfl
  | other =>
      have hkept := action_kept hbase (.inr (.inr heffect))
      refine (if_pos (W.lowers hbase (.inr heffect))).trans (congrArg some ?_)
      simp only [State.waiters, State.record, hkept]
      rfl

theorem action_step {label : Label α P} {next : State σ P} (hstep : step W s label = some next) :
    (WaitQueue.system (Option P)).step (s.waiters W) (action W s label) =
      some (next.waiters W) := by
  cases label with
  | base a => exact action_base hstep
  | start p =>
      simp only [step, Option.ite_none_right_eq_some, Option.some.injEq] at hstep
      obtain ⟨⟨hwaiting, hplace, -⟩, rfl⟩ := hstep
      have hphase : (s.waiters W).phase (some p) = .out := by
        rw [phase_some, hwaiting, hplace]
        rfl
      refine congrArg some ((waiters_goto s .prepare hwaiting).trans ?_).symm
      exact WaitQueue.State.move_self _ hphase
  | prepare p =>
      simp only [step, Option.ite_none_right_eq_some, Option.some.injEq] at hstep
      obtain ⟨⟨hwaiting, hplace⟩, rfl⟩ := hstep
      have hphase : (s.waiters W).phase (some p) = .out := by
        rw [phase_some, hwaiting, hplace]
        rfl
      refine (if_pos hphase).trans (congrArg some ?_)
      have hgoto := waiters_goto s .test hwaiting
      rw [WaitQueue.State.prepare, show WaitQueue.Phase.checking = phaseOf true .test from rfl,
        ← hgoto]
      simp only [State.waiters, State.prepare, State.goto, elim_update]
      rfl
  | sleep p =>
      simp only [step, Option.ite_none_right_eq_some, Option.some.injEq] at hstep
      obtain ⟨⟨hwaiting, hplace, hcondition⟩, rfl⟩ := hstep
      have hphase : (s.waiters W).phase (some p) = .checking := by
        rw [phase_some, hwaiting, hplace]
        rfl
      exact (if_pos ⟨hphase, hcondition⟩).trans
        (congrArg some (waiters_goto s .asleep hwaiting).symm)
  | resume p =>
      simp only [step, Option.ite_none_right_eq_some, Option.some.injEq] at hstep
      obtain ⟨⟨hwaiting, hplace, hrunnable⟩, rfl⟩ := hstep
      have hphase : (s.waiters W).phase (some p) = .asleep := by
        rw [phase_some, hwaiting, hplace]
        rfl
      exact (if_pos ⟨hphase, hrunnable⟩).trans
        (congrArg some (waiters_goto s .prepare hwaiting).symm)
  | wakeUp =>
      simp only [step, Option.ite_none_right_eq_some, Option.some.injEq] at hstep
      obtain ⟨hwaking, rfl⟩ := hstep
      have hphase : (s.waiters W).phase none = .raised := by
        change (if s.waking then _ else _) = _
        rw [hwaking]
        rfl
      refine (if_pos hphase).trans (congrArg some ?_)
      simp only [State.waiters, WaitQueue.State.wake, WaitQueue.State.move]
      congr 1
      · funext q
        cases q <;> rfl
      · funext q
        cases q <;> simp

def simulation (W : Waits S P) : System.Simulation (system W) (fun _ _ => True)
    (WaitQueue.system (Option P)) (fun _ _ => True) where
  inv _ := True
  abs s := s.waiters W
  label := action W
  init s hs := by
    refine ⟨trivial, fun q => ?_⟩
    cases q with
    | none =>
        change (if s.waking then _ else _) = _
        rw [hs.2]
        rfl
    | some p =>
        rw [phase_some, W.init hs.1 p]
        rfl
  step _ _ _ _ _ hstep := ⟨trivial, trivial, action_step hstep⟩

/-! ## What the waits keep and give -/

/-- The base does nothing that it would not do without the waits. -/
theorem base_reachable (h : (system W).Reachable s) : S.Reachable s.base := by
  induction h with
  | init hinit => exact .init hinit.1
  | @step s next label _ _ hstep ih =>
      cases label with
      | base a =>
          obtain ⟨-, base, hbase, rfl⟩ := step_base hstep
          rw [record_base]
          exact ih.step trivial hbase
      | start p | prepare p | sleep p | resume p | wakeUp =>
          simp only [system, step, Option.ite_none_right_eq_some, Option.some.injEq] at hstep
          obtain ⟨-, rfl⟩ := hstep
          exact ih

theorem sleeper_runnable (h : (system W).Reachable s) (hcondition : W.condition s.base = true)
    (hwaking : s.waking = false) {p : P} (hp : W.waiting s.base p = true)
    (hasleep : s.place p = .asleep) : s.runnable p = true := by
  have hsound := WaitQueue.sound_of_reachable ((simulation W).reachable h)
  have hphase : (s.waiters W).phase (some p) = .asleep := by
    rw [phase_some, hp, hasleep]
    rfl
  rcases hsound.no_lost_wakeup hcondition with hrunnable | ⟨w, hw⟩
  · exact hrunnable (some p) hphase
  · cases w with
    | none =>
        change (if s.waking then _ else _) = _ at hw
        rw [hwaking] at hw
        cases hw
    | some q =>
        change phaseOf (W.waiting s.base q) (s.place q) = .raised at hw
        cases hwaiting : W.waiting s.base q <;> cases hplace : s.place q <;>
          simp [hwaiting, hplace, phaseOf] at hw

theorem step_prepare {p : P} (hp : W.waiting s.base p = true) (hplace : s.place p = .prepare) :
    (system W).step s (.prepare p) = some (s.prepare p) :=
  if_pos ⟨hp, hplace⟩

/-- While the condition holds, a waiting process comes to a test of it by its own steps. -/
theorem reaches_test (h : (system W).Reachable s) (hcondition : W.condition s.base = true)
    (hwaking : s.waking = false) {p : P} (hp : W.waiting s.base p = true) :
    ∃ labels next, (∀ label ∈ labels, label = .resume p ∨ label = .prepare p) ∧
      (system W).run s labels = some next ∧ next.base = s.base ∧ (next.place p).Tests := by
  cases hplace : s.place p with
  | first => exact ⟨[], s, by simp, rfl, rfl, .inl hplace⟩
  | test => exact ⟨[], s, by simp, rfl, rfl, .inr hplace⟩
  | prepare =>
      refine ⟨[.prepare p], s.prepare p, by simp, ?_, rfl, .inr (Function.update_self ..)⟩
      rw [System.run_cons, step_prepare hp hplace]
      rfl
  | asleep =>
      have hrunnable := sleeper_runnable h hcondition hwaking hp hplace
      have hresume : (system W).step s (.resume p) = some (s.goto p .prepare) :=
        if_pos ⟨hp, hplace, hrunnable⟩
      have hprepare : (system W).step (s.goto p .prepare) (.prepare p) =
          some ((s.goto p .prepare).prepare p) :=
        step_prepare hp (Function.update_self ..)
      refine ⟨[.resume p, .prepare p], (s.goto p .prepare).prepare p, by simp, ?_, rfl,
        .inr (Function.update_self ..)⟩
      rw [System.run_cons, hresume, Option.bind_some, System.run_cons, hprepare]
      rfl

/-- The base steps that have nothing to do with the waits are made as they are. -/
theorem run_other {labels : List α} {base : σ}
    (hother : S.GuardedRun (fun s a => W.effect s a = .other) s.base labels)
    (hrun : S.run s.base labels = some base) :
    (system W).run s (labels.map .base) = some { s with base := base } := by
  induction labels generalizing s with
  | nil =>
      obtain rfl := Option.some.inj hrun
      rfl
  | cons a rest ih =>
      obtain ⟨middle, hstep, hrest⟩ := Option.bind_eq_some_iff.mp hrun
      obtain ⟨heffect, hguard⟩ := hother
      rw [hstep] at hguard
      have hmade : (system W).step s (.base a) = some { s with base := middle } := by
        simp [system, step, heffect, Allowed, hstep, State.record]
      rw [List.map_cons, System.run_cons, hmade, Option.bind_some]
      exact ih (s := { s with base := middle }) hguard hrest

/-- Once the waiters are woken, a waiting process comes to a test by its own steps. -/
theorem reaches_test_woken (h : (system W).Reachable s) (hcondition : W.condition s.base = true)
    {p : P} (hp : W.waiting s.base p = true) :
    ∃ labels next,
      (∀ label ∈ labels, label = .wakeUp ∨ label = .resume p ∨ label = .prepare p) ∧
      (system W).run s labels = some next ∧ next.base = s.base ∧ (next.place p).Tests := by
  cases hwaking : s.waking with
  | false =>
      obtain ⟨labels, next, hlabels, hnext⟩ := reaches_test h hcondition hwaking hp
      exact ⟨labels, next, fun label hmem => .inr (hlabels label hmem), hnext⟩
  | true =>
      let woken : State σ P :=
        { s with runnable := fun q => s.runnable q || s.registered q, waking := false }
      have hwake : (system W).step s .wakeUp = some woken := if_pos hwaking
      obtain ⟨labels, next, hlabels, hrun, hnext⟩ :=
        reaches_test (h.step trivial hwake) hcondition rfl hp
      refine ⟨.wakeUp :: labels, next, ?_, ?_, hnext⟩
      · simp only [List.mem_cons, forall_eq_or_imp, true_or, true_and]
        exact fun label hmem => .inr (hlabels label hmem)
      · rw [System.run_cons, hwake]
        exact hrun

/-- What a waiting process could do from the end of its wait, it does wherever in the wait it
is, once the waiters are woken. -/
theorem served (h : (system W).Reachable s) (hcondition : W.condition s.base = true) {p : P}
    (hp : W.waiting s.base p = true) {a : α} {labels : List α} {middle finish : σ}
    (heffect : W.effect s.base a = .leave p) (hleave : S.step s.base a = some middle)
    (hother : S.GuardedRun (fun s a => W.effect s a = .other) middle labels)
    (hrun : S.run middle labels = some finish) :
    ∃ waits next,
      (∀ label ∈ waits, label = .wakeUp ∨ label = .resume p ∨ label = .prepare p) ∧
      (system W).run s (waits ++ (a :: labels).map .base) = some next ∧ next.base = finish := by
  obtain ⟨waits, tested, hwaits, htested, hbase, hplace⟩ := reaches_test_woken h hcondition hp
  rw [← hbase] at heffect hleave
  have hmade : (system W).step tested (.base a) = some (tested.record middle (.leave p)) := by
    have hallowed : Allowed tested (.leave p) := hplace
    simp only [system, step, hleave, heffect, if_pos hallowed, Option.map_some]
  refine ⟨waits, { tested.record middle (.leave p) with base := finish }, hwaits, ?_, rfl⟩
  rw [System.run_append, htested, Option.bind_some, List.map_cons, System.run_cons, hmade,
    Option.bind_some]
  exact run_other (s := tested.record middle (.leave p)) hother hrun

end FarsightDriver.Foundation.Sleepers
