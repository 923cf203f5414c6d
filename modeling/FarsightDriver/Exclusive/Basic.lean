import FarsightDriver.Foundation.Lock
import FarsightDriver.Foundation.TestAndSet

/-!
# Exclusive open

Five of the `myfifo` drivers admit one opener at a time through the flag
`avilable`.  They differ in what surrounds its accesses; what they share is the
state, in which every process has a program counter and the value its last
call returned, and the reading of it as a competition for a flag.  A process
stands for one open file at a time: a program that opens the device twice is
two of them.
-/

namespace FarsightDriver.Exclusive

open FarsightDriver.Foundation

def ebusy : Int := 16

structure State (L P Pc : Type*) where
  lock : L
  avilable : Int
  pc : P → Pc
  ret : P → Int

variable {L P Pc : Type*} [DecidableEq P]

def State.goto (s : State L P Pc) (p : P) (pc : Pc) : State L P Pc :=
  { s with pc := Function.update s.pc p pc }

def State.returns (s : State L P Pc) (p : P) (value : Int) (pc : Pc) : State L P Pc :=
  { s.goto p pc with ret := Function.update s.ret p value }

theorem State.map_goto {β : Type*} (f : Pc → β) (s : State L P Pc) (p : P) (pc : Pc) :
    (fun q => f ((s.goto p pc).pc q)) =
      Function.update (fun q => f (s.pc q)) p (f pc) :=
  Function.comp_update f s.pc p pc

/-- What the competition for the flag sees of a driver's state. -/
def State.abstract (phase : Pc → TestAndSet.Phase) (s : State L P Pc) :
    TestAndSet.State P where
  free := s.avilable == 1
  phase p := phase (s.pc p)

@[simp] theorem State.abstract_goto (phase : Pc → TestAndSet.Phase)
    (s : State L P Pc) (p : P) (pc : Pc) :
    (s.goto p pc).abstract phase = (s.abstract phase).move p (phase pc) := by
  simp only [State.abstract, State.map_goto, TestAndSet.State.move]
  rfl

section Abstract

variable {phase : Pc → TestAndSet.Phase} (s : State L P Pc) {p : P} {old : Pc}

omit [DecidableEq P] in
theorem State.abstract_phase (hp : s.pc p = old) : (s.abstract phase).phase p = phase old :=
  congrArg phase hp

theorem State.abstract_skip {pc : Pc} (hp : s.pc p = old) (hsame : phase old = phase pc) :
    (s.goto p pc).abstract phase = s.abstract phase := by
  rw [State.abstract_goto]
  exact TestAndSet.State.move_self _ ((s.abstract_phase hp).trans hsame)

theorem State.abstract_other {next : State L P Pc} {pc : Pc} (hp : s.pc p = old)
    (hnext : next.pc = (s.goto p pc).pc) (havail : next.avilable = s.avilable)
    (hsame : phase old = phase pc) :
    (TestAndSet.system P).step (s.abstract phase) .skip = some (next.abstract phase) := by
  have hgoto : next.abstract phase = (s.goto p pc).abstract phase := by
    rw [State.abstract, State.abstract, hnext, havail]
    rfl
  rw [hgoto, s.abstract_skip hp hsame]
  rfl

theorem State.abstract_test {won busy : Pc} (hp : s.pc p = old) (hold : phase old = .out)
    (hwon : phase won = .won) (hbusy : phase busy = .out) :
    (TestAndSet.system P).step (s.abstract phase) (.test p) =
      some ((s.goto p (if 1 = s.avilable then won else busy)).abstract phase) := by
  have hout := (s.abstract_phase hp).trans hold
  by_cases havail : 1 = s.avilable
  · have hfree : (s.abstract phase).free = true := by
      simp [State.abstract, ← havail]
    rw [if_pos havail, State.abstract_goto, hwon]
    simp only [TestAndSet.system, hout, hfree, if_true]
  · have htaken : (s.abstract phase).free = false := by
      simp [State.abstract, Ne.symm havail]
    rw [if_neg havail, s.abstract_skip hp (hold.trans hbusy.symm)]
    simp [TestAndSet.system, hout, htaken]

theorem State.abstract_set {pc : Pc} (hp : s.pc p = old) (hold : phase old = .won)
    (hpc : phase pc = .owner) :
    (TestAndSet.system P).step (s.abstract phase) (.set p) =
      some (State.abstract phase { s.goto p pc with avilable := 0 }) := by
  have hgoto := State.abstract_goto phase s p pc
  have hwon := (s.abstract_phase hp).trans hold
  rw [hpc] at hgoto
  simp only [TestAndSet.system, hwon, if_true, ← hgoto]
  rfl

theorem State.abstract_release {pc : Pc} (hp : s.pc p = old) (hold : phase old = .owner)
    (hpc : phase pc = .out) :
    (TestAndSet.system P).step (s.abstract phase) (.release p) =
      some (State.abstract phase { s.goto p pc with avilable := 1 }) := by
  have hgoto := State.abstract_goto phase s p pc
  have howner := (s.abstract_phase hp).trans hold
  rw [hpc] at hgoto
  simp only [TestAndSet.system, howner, if_true, ← hgoto]
  rfl

omit [DecidableEq P] in
theorem State.abstract_init (havail : s.avilable = 1) (hout : ∀ q, phase (s.pc q) = .out) :
    (s.abstract phase).free = true ∧ ∀ q, (s.abstract phase).phase q = .out := by
  refine ⟨?_, hout⟩
  simp [State.abstract, havail]

omit [DecidableEq P] in
theorem State.avilable_iff (h : TestAndSet.Exclusive (s.abstract phase)) :
    s.avilable = 1 ↔ ∀ p, phase (s.pc p) ≠ .owner := by
  rw [← beq_iff_eq]
  exact h.free_iff

end Abstract

/-! ## One lock around the section -/

/-- The lock is owned by exactly the process between lock and unlock. -/
def State.Guarded (critical : Pc → Bool) (s : State (Option P) P Pc) : Prop :=
  Lock.Guards (fun _ => ()) (fun _ => s.lock) fun p => critical (s.pc p)

section Guarded

variable {critical : Pc → Bool} {s : State (Option P) P Pc} {p : P} {old pc : Pc}

omit [DecidableEq P] in
theorem State.Guarded.init (hfree : s.lock = none) (hout : ∀ q, critical (s.pc q) = false) :
    s.Guarded critical :=
  Lock.Guards.init (fun _ => hfree) hout

omit [DecidableEq P] in
theorem State.Guarded.owner (h : s.Guarded critical) (hp : s.pc p = old)
    (hin : critical old = true) : s.lock = some p :=
  (h p).mp ((congrArg critical hp).trans hin)

omit [DecidableEq P] in
theorem State.Guarded.free (h : s.Guarded critical)
    (hout : ∀ q, critical (s.pc q) = false) : s.lock = none := by
  rw [Option.eq_none_iff_forall_ne_some]
  intro q
  exact Lock.Guards.idle h hout

omit [DecidableEq P] in
/-- The winners hold the lock, so nobody else has won when the lock's owner tests. -/
theorem State.Guarded.undisturbed {phase : Pc → TestAndSet.Phase} (h : s.Guarded critical)
    (hwon : ∀ pc, phase pc = .won → critical pc = true) (hp : s.pc p = old)
    (hin : critical old = true) (hnot : phase old ≠ .won) :
    TestAndSet.Undisturbed (s.abstract phase) (.test p) := by
  intro q hq
  have heq : p = q :=
    Lock.Guards.exclusive h rfl ((congrArg critical hp).trans hin) (hwon _ hq)
  subst heq
  exact hnot ((s.abstract_phase hp).symm.trans hq)

theorem State.Guarded.goto (h : s.Guarded critical) (hp : s.pc p = old)
    (hkeep : critical old = critical pc) : (s.goto p pc).Guarded critical := by
  have hkept := Lock.Guards.keep h ((congrArg critical hp).trans hkeep)
  rwa [← State.map_goto] at hkept

theorem State.Guarded.acquire (h : s.Guarded critical) (hfree : s.lock = none)
    (hpc : critical pc = true) :
    State.Guarded critical { s.goto p pc with lock := some p } := by
  have hgot := Lock.Guards.acquire_single h (p := p) hfree
  rwa [← hpc, ← State.map_goto] at hgot

theorem State.Guarded.release (h : s.Guarded critical) (hp : s.pc p = old)
    (hin : critical old = true) (hpc : critical pc = false) (value : Int) :
    State.Guarded critical { s.returns p value pc with lock := none } := by
  have hgave := Lock.Guards.release_single h ((congrArg critical hp).trans hin)
  rwa [← hpc, ← State.map_goto] at hgave

end Guarded

end FarsightDriver.Exclusive
