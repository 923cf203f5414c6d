import FarsightDriver.Exclusive.Basic

/-!
# Exclusive open with interrupts disabled

`myopen` tests and clears `avilable` between `local_irq_disable` and
`local_irq_enable`, which keep other processes away from the executing CPU
only.  `lock c` names the process that runs on CPU `c` with interrupts off; as
long as there is one, no other process placed on `c` takes a step.
-/

namespace FarsightDriver.Exclusive.Irq

open FarsightDriver.Foundation

inductive Pc where
  | idle
  | irqDisable
  | test
  | store
  | enableOk
  | enableBusy
  | opened
  | closeDisable
  | closeStore
  | closeEnable
  deriving DecidableEq, Repr

abbrev State (C P : Type*) := Exclusive.State (C → Option P) P Pc

variable {C P : Type*} [DecidableEq C] [DecidableEq P] (cpu : P → C)

def State.irqDisable (s : State C P) (p : P) : State C P :=
  { s with lock := Function.update s.lock (cpu p) (some p) }

def State.irqEnable (s : State C P) (p : P) : State C P :=
  { s with lock := Function.update s.lock (cpu p) none }

def exec (s : State C P) (p : P) : State C P :=
  match s.pc p with
  | .idle => s.goto p .irqDisable
  | .irqDisable => State.irqDisable cpu (s.goto p .test) p
  | .test => s.goto p (if 1 = s.avilable then .store else .enableBusy)
  | .store => { s.goto p .enableOk with avilable := 0 }
  | .enableOk => State.irqEnable cpu (s.returns p 0 .opened) p
  | .enableBusy => State.irqEnable cpu (s.returns p (-ebusy) .idle) p
  | .opened => s.goto p .closeDisable
  | .closeDisable => State.irqDisable cpu (s.goto p .closeStore) p
  | .closeStore => { s.goto p .closeEnable with avilable := 1 }
  | .closeEnable => State.irqEnable cpu (s.returns p 0 .idle) p

def step (s : State C P) (p : P) : Option (State C P) :=
  if s.lock (cpu p) = none ∨ s.lock (cpu p) = some p then some (exec cpu s p) else none

def system : System (State C P) P where
  init s := (∀ c, s.lock c = none) ∧ s.avilable = 1 ∧ ∀ p, s.pc p = .idle
  step := step cpu

def Pc.critical : Pc → Bool
  | .test | .store | .enableOk | .enableBusy | .closeStore | .closeEnable => true
  | _ => false

def Pc.phase : Pc → TestAndSet.Phase
  | .store => .won
  | .enableOk | .opened | .closeDisable | .closeStore => .owner
  | _ => .out

variable {cpu} in
theorem step_others {s next : State C P} {p q : P} (hstep : step cpu s p = some next)
    (hq : q ≠ p) : next.pc q = s.pc q := by
  simp only [step, Option.ite_none_right_eq_some, Option.some.injEq] at hstep
  obtain ⟨-, rfl⟩ := hstep
  unfold exec
  cases hpc : s.pc p <;> exact Function.update_of_ne hq _ _

/-- The device is held from the store in `myopen` to the store in `myclose`. -/
def Holds (s : State C P) (p : P) : Prop := (s.pc p).phase = .owner

def Quiescent (s : State C P) : Prop := ∀ p, s.pc p = .idle ∨ s.pc p = .opened

def Contract (s : State C P) : Prop :=
  (∀ p q, Holds s p → Holds s q → p = q) ∧
  (Quiescent s → (s.avilable = 1 ↔ ∀ p, ¬ Holds s p))

/-- Nobody tests the flag while somebody stands between its test and its store. -/
def TestsAlone (s : State C P) (p : P) : Prop :=
  s.pc p = .test → ∀ q, s.pc q ≠ .store

def Masked (s : State C P) : Prop :=
  Lock.Guards cpu s.lock fun p => (s.pc p).critical

def action (s : State C P) (p : P) : TestAndSet.Action P :=
  match s.pc p with
  | .test => .test p
  | .store => .set p
  | .closeStore => .release p
  | _ => .skip

section Masking

variable {cpu} {s : State C P} {p : P} {old pc : Pc}

omit [DecidableEq C] in
theorem Masked.goto (h : Masked cpu s) (hp : s.pc p = old)
    (hkeep : old.critical = pc.critical) : Masked cpu (s.goto p pc) := by
  have hkept := Lock.Guards.keep h ((congrArg Pc.critical hp).trans hkeep)
  rwa [← State.map_goto] at hkept

theorem Masked.disable (h : Masked cpu s)
    (hrun : s.lock (cpu p) = none ∨ s.lock (cpu p) = some p) (hp : s.pc p = old)
    (hout : old.critical = false) (hpc : pc.critical = true) :
    Masked cpu (State.irqDisable cpu (s.goto p pc) p) := by
  have hfree : s.lock (cpu p) = none := by
    rcases hrun with hnone | hself
    · exact hnone
    · have hin : (s.pc p).critical = true := (h p).mpr hself
      rw [hp, hout] at hin
      contradiction
  have hgot := Lock.Guards.acquire h hfree
  rwa [← hpc, ← State.map_goto] at hgot

theorem Masked.enable (h : Masked cpu s) (hp : s.pc p = old) (hin : old.critical = true)
    (hpc : pc.critical = false) (value : Int) :
    Masked cpu (State.irqEnable cpu (s.returns p value pc) p) := by
  have hgave := Lock.Guards.release h ((congrArg Pc.critical hp).trans hin)
  rwa [← hpc, ← State.map_goto] at hgave

theorem masked_step {next : State C P} (h : Masked cpu s)
    (hstep : step cpu s p = some next) : Masked cpu next := by
  simp only [step, Option.ite_none_right_eq_some, Option.some.injEq] at hstep
  obtain ⟨hrun, rfl⟩ := hstep
  unfold exec
  cases hpc : s.pc p <;> simp only
  case irqDisable => exact h.disable hrun hpc rfl rfl
  case closeDisable => exact h.disable hrun hpc rfl rfl
  case enableOk => exact h.enable hpc rfl rfl 0
  case enableBusy => exact h.enable hpc rfl rfl (-ebusy)
  case closeEnable => exact h.enable hpc rfl rfl 0
  case test => exact h.goto hpc (by split <;> rfl)
  all_goals exact h.goto hpc rfl

theorem masked_init {s : State C P} (hs : (system cpu).init s) : Masked cpu s := by
  obtain ⟨hlock, -, hidle⟩ := hs
  exact Lock.Guards.init hlock fun p => by rw [hidle p]; rfl

omit [DecidableEq C] [DecidableEq P] in
theorem testsAlone_of_one_cpu (hone : ∀ p q, cpu p = cpu q) (h : Masked cpu s) :
    TestsAlone s p := by
  intro hp q hq
  have heq : p = q :=
    Lock.Guards.exclusive h (hone p q) (by rw [hp]; rfl) (by rw [hq]; rfl)
  rw [heq, hq] at hp
  contradiction

end Masking

theorem abstract_step {s next : State C P} {p : P} (hstep : step cpu s p = some next) :
    (TestAndSet.system P).step (s.abstract Pc.phase) (action s p) =
      some (next.abstract Pc.phase) := by
  simp only [step, Option.ite_none_right_eq_some, Option.some.injEq] at hstep
  obtain ⟨-, rfl⟩ := hstep
  unfold exec
  cases hpc : s.pc p <;> simp only [action, hpc]
  case test => exact s.abstract_test hpc rfl rfl rfl
  case store => exact s.abstract_set hpc rfl rfl
  case closeStore => exact s.abstract_release hpc rfl rfl
  all_goals exact s.abstract_other hpc rfl rfl rfl

omit [DecidableEq C] [DecidableEq P] in
theorem undisturbed {s : State C P} {p : P} (halone : TestsAlone s p) :
    TestAndSet.Undisturbed (s.abstract Pc.phase) (action s p) := by
  cases hpc : s.pc p <;> simp only [action, hpc] <;> try trivial
  intro q hq
  refine halone hpc q ?_
  cases hstore : s.pc q <;> simp [State.abstract, hstore, Pc.phase] at hq ⊢

def simulation : System.Simulation (system cpu) TestsAlone
    (TestAndSet.system P) TestAndSet.Undisturbed where
  inv _ := True
  abs s := s.abstract Pc.phase
  label := action
  init s hs := by
    obtain ⟨-, havail, hidle⟩ := hs
    exact ⟨trivial, s.abstract_init havail fun q => congrArg Pc.phase (hidle q)⟩
  step s p next _ halone hstep :=
    ⟨trivial, undisturbed halone, abstract_step cpu hstep⟩

theorem contract_of_testsAlone {s : State C P}
    (h : (system cpu).ReachableWith TestsAlone s) : Contract s := by
  have hexcl := TestAndSet.exclusive_of_reachable ((simulation cpu).reachable h)
  exact ⟨fun p q => hexcl.owner_unique p q, fun _ => s.avilable_iff hexcl⟩

def start : State C P := ⟨fun _ => none, 1, fun _ => .idle, fun _ => 0⟩

theorem two_cpus_admit_two {p q : P} (hcpu : cpu p ≠ cpu q) :
    ∃ s, (system cpu).run start [p, p, p, q, q, q, p, q] = some s ∧
      Holds s p ∧ Holds s q := by
  have hne : p ≠ q := fun heq => hcpu (congrArg cpu heq)
  refine ⟨_, by
    simp [system, step, exec, start, State.irqDisable, State.goto, hne, hne.symm,
      hcpu, hcpu.symm]
    rfl, ?_, ?_⟩ <;> simp [Holds, Pc.phase, hne]

theorem irq_open_exclusive :
    (∀ s, (system cpu).ReachableWith TestsAlone s → Contract s) ∧
    ((∀ s, (system cpu).Reachable s → Contract s) ↔ ∀ p q, cpu p = cpu q) := by
  refine ⟨fun s => contract_of_testsAlone cpu, fun hall p q => ?_, fun hone s hs => ?_⟩
  · by_contra hcpu
    obtain ⟨s, hrun, hp, hq⟩ := two_cpus_admit_two cpu hcpu
    have hreach : (system cpu).Reachable s :=
      System.reachable_of_run ⟨fun _ => rfl, rfl, fun _ => rfl⟩ hrun
    exact hcpu (congrArg cpu ((hall s hreach).1 p q hp hq))
  · refine contract_of_testsAlone cpu (System.ReachableWith.reachableWith (Masked cpu)
      (fun s => masked_init) (fun s p next h _ => masked_step h) ?_ hs)
    exact fun s p next h _ _ => testsAlone_of_one_cpu hone h

theorem irq_admits_two :
    ∃ s, (system (fun p : Fin 2 => p)).run start
        [0, 0, 0, 1, 1, 1, 0, 1, 0, 1] = some s ∧
      (s.pc 0 = .opened ∧ s.ret 0 = 0) ∧ (s.pc 1 = .opened ∧ s.ret 1 = 0) :=
  ⟨_, rfl, ⟨rfl, rfl⟩, ⟨rfl, rfl⟩⟩

theorem opens_beside {p q : P} (hcpu : cpu p ≠ cpu q) :
    ∃ s, (system cpu).run start [p, p, p, q, q, q, p, q, p, q] = some s ∧
      s.pc p = .opened ∧ s.pc q = .opened := by
  have hne : p ≠ q := fun heq => hcpu (congrArg cpu heq)
  refine ⟨_, by
    simp [system, step, exec, start, State.irqDisable, State.irqEnable, State.goto,
      State.returns, hne, hne.symm, hcpu, hcpu.symm]
    rfl, ?_, ?_⟩ <;> simp [hne]

variable {cpu} in
theorem testsAlone_of_reachable (hone : ∀ p q, cpu p = cpu q) {s : State C P}
    (h : (system cpu).Reachable s) : (system cpu).ReachableWith TestsAlone s := by
  refine System.ReachableWith.reachableWith (Masked cpu) (fun _ => masked_init)
    (fun _ _ _ hmasked _ => masked_step hmasked) ?_ h
  exact fun _ _ _ hmasked _ _ => testsAlone_of_one_cpu hone hmasked

end FarsightDriver.Exclusive.Irq
