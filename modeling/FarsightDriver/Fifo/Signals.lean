import FarsightDriver.Fifo.Stream
import Mathlib.Data.List.Nodup

/-!
# Readers told by signals

The last `myfifo` driver keeps a queue of the files that asked for `SIGIO`, and
`mywrite` calls `kill_fasync` after its `wake_up`.  `fasync.c` opens the device,
makes itself the owner, sets `FASYNC`, installs `mygets` and loops; `mygets`
reads once, up to 100 bytes.  Each process has a file of its own.

`SIGIO` is not queued: a signal that arrives while one is pending is that one.  It
is blocked while its handler runs, and ends a process without a handler.  `heard`,
`found` and `ran` record the start of the last handler, and no step reads them.
-/

namespace FarsightDriver.Fifo.Signals

open FarsightDriver.Foundation
open FarsightDriver.Fifo.Blocking

/-- The program points of `fasync.c`; a process `outside` does something else. -/
inductive App where
  | outside
  | opened
  | owned
  | async
  | looping
  | handling
  | dead
  deriving DecidableEq, Repr

def App.listens : App → Bool
  | .async | .looping | .handling => true
  | .outside | .opened | .owned | .dead => false

structure State (model : DataModel) (P : Type*) where
  base : Blocking.State model P
  app : P → App
  fasyncQueue : List P
  owner : P → Bool
  pending : P → Bool
  killing : P → Bool
  heard : P → Nat
  found : P → Int
  ran : P → Bool

inductive Label (model : DataModel) (P : Type*) where
  | driver (p : P) (input : Input model)
  | killFasync (p : P)
  | main (p : P)
  | deliver (p : P) (args : ReadArgs model)
  | sigreturn (p : P)
  | exit (p : P)

variable {model : DataModel} {P : Type*} [DecidableEq P]

/-! ## The driver -/

/-- The kernel keeps one entry for each file. -/
def fasyncHelper (filep : P) (on : Bool) (queue : List P) : List P :=
  if on then queue.insert filep else queue.erase filep

def State.myfasync (s : State model P) (filep : P) (mod : Bool) : State model P :=
  { s with fasyncQueue := fasyncHelper filep mod s.fasyncQueue }

def State.myclose (s : State model P) (filep : P) : State model P := s.myfasync filep false

def State.killFasync (s : State model P) (p : P) : State model P :=
  { s with
    pending := fun q => s.pending q || (s.fasyncQueue.contains q && s.owner q)
    killing := Function.update s.killing p false }

/-! ## The processes -/

/-- What a process may do in the driver: a handler only goes on with its read. -/
def State.mayRun (s : State model P) (p : P) : Input model → Bool
  | .tick => s.app p = .outside ∨ s.app p = .handling
  | _ => s.app p = .outside

/-- Between the `enque` of a write and its `wake_up`. -/
def wakes : Pc model → Bool
  | .writeWakeUp _ => true
  | _ => false

def State.driver (s : State model P) (p : P) (base : Blocking.State model P) : State model P :=
  { s with
    base := base
    killing := if wakes (s.base.pc p) then Function.update s.killing p true else s.killing }

def State.goto (s : State model P) (p : P) (app : App) : State model P :=
  { s with app := Function.update s.app p app }

def State.setOwner (s : State model P) (p : P) : State model P :=
  { s.goto p .owned with owner := Function.update s.owner p true }

def State.listen (s : State model P) (p : P) : State model P :=
  { s with
    heard := Function.update s.heard p s.base.ledger.accepted.length
    found := Function.update s.found p s.base.que.num }

def State.setAsync (s : State model P) (p : P) : State model P :=
  { ((s.listen p).myfasync p true).goto p .async with ran := Function.update s.ran p false }

def State.mygets (s : State model P) (p : P) (base : Blocking.State model P) : State model P :=
  { (s.listen p).goto p .handling with
    base := base
    pending := Function.update s.pending p false
    ran := Function.update s.ran p true }

/-- The end of a process closes its file. -/
def State.finish (s : State model P) (p : P) : State model P := (s.myclose p).goto p .dead

def step (s : State model P) : Label model P → Option (State model P)
  | .driver p input =>
      if s.killing p = false ∧ s.mayRun p input = true then
        (Blocking.step s.base (p, input)).map (s.driver p)
      else none
  | .killFasync p => if s.killing p = true then some (s.killFasync p) else none
  | .main p =>
      match s.app p with
      | .outside =>
          match s.base.pc p with
          | .idle => if s.killing p = false then some (s.goto p .opened) else none
          | _ => none
      | .opened => some (s.setOwner p)
      | .owned => some (s.setAsync p)
      | .async => some (s.goto p .looping)
      | .looping | .handling | .dead => none
  | .deliver p args =>
      match s.app p with
      | .looping =>
          -- `mygets` reads into its own `buf[100]`
          if s.pending p = true ∧ args.size = 100 ∧ 100 ≤ args.room then
            (Blocking.step s.base (p, .read args)).map (s.mygets p)
          else none
      | .async => if s.pending p = true then some (s.finish p) else none
      | .outside | .opened | .owned | .handling | .dead => none
  | .sigreturn p =>
      match s.app p, s.base.pc p with
      | .handling, .idle => some (s.goto p .looping)
      | _, _ => none
  | .exit p =>
      match s.app p with
      | .opened | .owned | .async | .looping => some (s.finish p)
      | .outside | .handling | .dead => none

def system (model : DataModel) (P : Type*) [DecidableEq P] :
    System (State model P) (Label model P) where
  init s := (Blocking.system model P).init s.base ∧ (∀ p, s.app p = .outside) ∧
    s.fasyncQueue = [] ∧ ∀ p, s.killing p = false
  step := step

/-! ## What a step can do -/

inductive Step (s : State model P) : Label model P → State model P → Prop
  | ran {p : P} {input : Input model} {base : Blocking.State model P}
      (hkilling : s.killing p = false) (hrun : s.mayRun p input = true)
      (hbase : Blocking.step s.base (p, input) = some base) :
      Step s (.driver p input) (s.driver p base)
  | told {p : P} (hkilling : s.killing p = true) : Step s (.killFasync p) (s.killFasync p)
  | opened {p : P} (happ : s.app p = .outside) (hidle : s.base.pc p = .idle)
      (hkilling : s.killing p = false) : Step s (.main p) (s.goto p .opened)
  | owned {p : P} (happ : s.app p = .opened) : Step s (.main p) (s.setOwner p)
  | registered {p : P} (happ : s.app p = .owned) : Step s (.main p) (s.setAsync p)
  | installed {p : P} (happ : s.app p = .async) : Step s (.main p) (s.goto p .looping)
  | handled {p : P} {args : ReadArgs model} {base : Blocking.State model P}
      (happ : s.app p = .looping) (hpending : s.pending p = true) (hsize : args.size = 100)
      (hroom : 100 ≤ args.room) (hbase : Blocking.step s.base (p, .read args) = some base) :
      Step s (.deliver p args) (s.mygets p base)
  | terminated {p : P} {args : ReadArgs model} (happ : s.app p = .async)
      (hpending : s.pending p = true) : Step s (.deliver p args) (s.finish p)
  | returned {p : P} (happ : s.app p = .handling) (hidle : s.base.pc p = .idle) :
      Step s (.sigreturn p) (s.goto p .looping)
  | exited {p : P} (happ : s.app p ≠ .outside) (happ' : s.app p ≠ .handling) :
      Step s (.exit p) (s.finish p)

theorem step_cases {s next : State model P} {label : Label model P}
    (h : step s label = some next) : Step s label next := by
  cases label with
  | driver p input =>
      simp only [step, Option.ite_none_right_eq_some] at h
      obtain ⟨⟨hkilling, hrun⟩, h⟩ := h
      obtain ⟨base, hbase, rfl⟩ := Option.map_eq_some_iff.mp h
      exact .ran hkilling hrun hbase
  | killFasync p =>
      simp only [step, Option.ite_none_right_eq_some, Option.some.injEq] at h
      exact h.2 ▸ .told h.1
  | main p =>
      cases happ : s.app p <;> simp only [step, happ, reduceCtorEq, Option.some.injEq] at h
      case outside =>
        cases hpc : s.base.pc p <;>
          simp only [hpc, reduceCtorEq, Option.ite_none_right_eq_some, Option.some.injEq] at h
        exact h.2 ▸ .opened happ hpc h.1
      case opened => exact h ▸ .owned happ
      case owned => exact h ▸ .registered happ
      case async => exact h ▸ .installed happ
  | deliver p args =>
      cases happ : s.app p <;>
        simp only [step, happ, reduceCtorEq, Option.ite_none_right_eq_some,
          Option.some.injEq] at h
      case looping =>
        obtain ⟨⟨hpending, hsize, hroom⟩, h⟩ := h
        obtain ⟨base, hbase, rfl⟩ := Option.map_eq_some_iff.mp h
        exact .handled happ hpending hsize hroom hbase
      case async => exact h.2 ▸ .terminated happ h.1
  | sigreturn p =>
      cases happ : s.app p <;> cases hpc : s.base.pc p <;>
        simp only [step, happ, hpc, reduceCtorEq, Option.some.injEq] at h
      exact h ▸ .returned happ hpc
  | exit p =>
      cases happ : s.app p <;> simp only [step, happ, reduceCtorEq, Option.some.injEq] at h
      all_goals exact h ▸ .exited (by simp [happ]) (by simp [happ])

/-! ## No signal is lost -/

def State.Announces (s : State model P) (w : P) : Prop :=
  wakes (s.base.pc w) = true ∨ s.killing w = true

/-- What was accepted since `p` listened last has set its signal, or is about to. -/
def Told (s : State model P) (p : P) : Prop :=
  s.base.ledger.accepted.length = s.heard p ∨ s.pending p = true ∨ ∃ w, s.Announces w

structure Listens (s : State model P) : Prop where
  base : Inv s.base
  nodup : s.fasyncQueue.Nodup
  registered : ∀ p, p ∈ s.fasyncQueue ↔ (s.app p).listens = true
  owner : ∀ p, s.app p = .owned ∨ (s.app p).listens = true → s.owner p = true
  told : ∀ p, (s.app p).listens = true → Told s p

variable {s next : State model P} {p : P}

theorem accepted_or_wakes {s next : Blocking.State model P} (h : Blocking.Effect s p next) :
    next.ledger.accepted = s.ledger.accepted ∨ wakes (next.pc p) = true := by
  cases h with
  | stay _ _ _ hledger => exact .inl (by rw [hledger])
  | enque hpc => exact .inr (by rw [hpc, Function.update_self]; rfl)
  | deque _ _ _ _ _ _ hledger => exact .inl (by rw [hledger]; rfl)
  | copy _ _ _ _ hledger => exact .inl (by rw [hledger])

/-- A step of the driver by `p` that adds to the queue makes `p` one that will announce it. -/
theorem told_driver {base : Blocking.State model P} (heffect : Blocking.Effect s.base p base)
    (hkilling : s.killing p = false) {q : P} (h : Told s q) : Told (s.driver p base) q := by
  rcases accepted_or_wakes heffect with hsame | hwakes
  · rcases h with hheard | hpending | ⟨w, hw⟩
    · exact .inl (hsame ▸ hheard)
    · exact .inr (.inl hpending)
    · refine .inr (.inr ⟨w, ?_⟩)
      by_cases hwp : w = p
      · subst hwp
        have hold : wakes (s.base.pc w) = true := hw.resolve_right (by simp [hkilling])
        right
        simp [State.driver, hold]
      · rcases hw with hw | hw
        · left
          rw [← hw, ← pc_of_effect heffect hwp]
          rfl
        · right
          simp only [State.driver]
          split
          · rw [Function.update_of_ne hwp, hw]
          · exact hw
  · exact .inr (.inr ⟨p, .inl hwakes⟩)

theorem Listens.driver (h : Listens s) {base : Blocking.State model P}
    (heffect : Blocking.Effect s.base p base) (hkilling : s.killing p = false) :
    Listens (s.driver p base) where
  base := inv_of_effect h.base heffect
  nodup := h.nodup
  registered := h.registered
  owner := h.owner
  told q hq := told_driver heffect hkilling (h.told q hq)

theorem Listens.killFasync (h : Listens s) : Listens (s.killFasync p) where
  base := h.base
  nodup := h.nodup
  registered := h.registered
  owner := h.owner
  told q hq := by
    have hmem : q ∈ s.fasyncQueue := (h.registered q).mpr hq
    have howner : s.owner q = true := h.owner q (.inr hq)
    exact .inr (.inl (by simp [State.killFasync, hmem, howner]))

/-- A step of the program of `p` that leaves driver and queue alone. -/
theorem Listens.goto (h : Listens s) {app : App} (hlistens : app.listens = (s.app p).listens)
    (howned : app ≠ .owned) : Listens (s.goto p app) := by
  have hsame (q : P) : ((s.goto p app).app q).listens = (s.app q).listens := by
    by_cases hq : q = p
    · subst hq
      simp [State.goto, hlistens]
    · simp [State.goto, hq]
  refine ⟨h.base, h.nodup, fun q => by rw [hsame]; exact h.registered q, ?_, ?_⟩
  · intro q hq
    rw [hsame] at hq
    refine h.owner q (hq.imp_left fun hq => ?_)
    by_cases hqp : q = p
    · subst hqp
      simp only [State.goto, Function.update_self] at hq
      exact absurd hq howned
    · simpa [State.goto, hqp] using hq
  · intro q hq
    rw [hsame] at hq
    exact h.told q hq

theorem Listens.setOwner (h : Listens s) (happ : s.app p = .opened) : Listens (s.setOwner p) := by
  have hsame (q : P) : ((s.setOwner p).app q).listens = (s.app q).listens := by
    by_cases hq : q = p
    · subst hq
      simp [State.setOwner, State.goto, happ, App.listens]
    · simp [State.setOwner, State.goto, hq]
  refine ⟨h.base, h.nodup, fun q => by rw [hsame]; exact h.registered q, ?_, ?_⟩
  · intro q hq
    by_cases hqp : q = p
    · subst hqp
      simp [State.setOwner]
    · have hold : s.app q = .owned ∨ (s.app q).listens = true := by
        simpa [State.setOwner, State.goto, hqp] using hq
      have howner := h.owner q hold
      simpa [State.setOwner, hqp] using howner
  · intro q hq
    rw [hsame] at hq
    exact h.told q hq

theorem Listens.setAsync (h : Listens s) (happ : s.app p = .owned) : Listens (s.setAsync p) := by
  have hself : (s.setAsync p).app p = .async := Function.update_self ..
  have hother {q : P} (hq : q ≠ p) : (s.setAsync p).app q = s.app q := Function.update_of_ne hq ..
  refine ⟨h.base, List.Nodup.insert h.nodup, fun q => ?_, fun q hq => ?_, fun q hq => ?_⟩
  · change q ∈ s.fasyncQueue.insert p ↔ _
    rw [List.mem_insert_iff, h.registered q]
    by_cases hqp : q = p
    · subst hqp
      simp [hself, App.listens]
    · simp [hother hqp, hqp]
  · by_cases hqp : q = p
    · exact hqp ▸ h.owner p (.inl happ)
    · rw [hother hqp] at hq
      exact h.owner q hq
  · by_cases hqp : q = p
    · subst hqp
      refine .inl ?_
      exact (Function.update_self q s.base.ledger.accepted.length s.heard).symm
    · rw [hother hqp] at hq
      refine (h.told q hq).imp_left fun hheard => ?_
      rw [show (s.setAsync p).heard q = s.heard q from Function.update_of_ne hqp ..]
      exact hheard

theorem Listens.finish (h : Listens s) : Listens (s.finish p) := by
  have hself : (s.finish p).app p = .dead := Function.update_self ..
  have hother {q : P} (hq : q ≠ p) : (s.finish p).app q = s.app q := Function.update_of_ne hq ..
  have hout {q : P} (hq : (s.finish p).app q = .owned ∨ ((s.finish p).app q).listens = true) :
      q ≠ p := by
    rintro rfl
    simp [hself, App.listens] at hq
  refine ⟨h.base, h.nodup.erase p, fun q => ?_, fun q hq => ?_, fun q hq => ?_⟩
  · change q ∈ s.fasyncQueue.erase p ↔ _
    rw [h.nodup.mem_erase_iff, h.registered q]
    by_cases hqp : q = p
    · subst hqp
      simp [hself, App.listens]
    · simp [hother hqp, hqp]
  · have hqp := hout hq
    rw [hother hqp] at hq
    exact h.owner q hq
  · have hqp := hout (.inr hq)
    rw [hother hqp] at hq
    exact h.told q hq

theorem read_step {s next : Blocking.State model P} {args : ReadArgs model}
    (hstep : Blocking.step s (p, .read args) = some next) :
    s.pc p = .idle ∧ next = s.goto p (.readPrepare args) := by
  cases hpc : s.pc p <;>
    simp only [Blocking.step, hpc, reduceCtorEq, Option.some.injEq] at hstep
  exact ⟨rfl, hstep.symm⟩

theorem Listens.mygets (h : Listens s) (happ : s.app p = .looping) {args : ReadArgs model}
    {base : Blocking.State model P} (hbase : Blocking.step s.base (p, .read args) = some base) :
    Listens (s.mygets p base) := by
  have hself : (s.mygets p base).app p = .handling := Function.update_self ..
  have hother {q : P} (hq : q ≠ p) : (s.mygets p base).app q = s.app q :=
    Function.update_of_ne hq ..
  have hlistens (q : P) : ((s.mygets p base).app q).listens = (s.app q).listens := by
    by_cases hqp : q = p
    · subst hqp
      rw [hself, happ]
      rfl
    · rw [hother hqp]
  have hinv := inv_of_effect h.base (step_effect h.base hbase)
  obtain ⟨hidle, rfl⟩ := read_step hbase
  refine ⟨hinv, h.nodup,
    fun q => (h.registered q).trans (by rw [hlistens]), fun q hq => ?_, fun q hq => ?_⟩
  · refine h.owner q ?_
    rw [hlistens] at hq
    refine hq.imp_left fun howned => ?_
    by_cases hqp : q = p
    · subst hqp
      rw [hself] at howned
      contradiction
    · rwa [hother hqp] at howned
  · by_cases hqp : q = p
    · subst hqp
      refine .inl ?_
      exact (Function.update_self q s.base.ledger.accepted.length s.heard).symm
    · rw [hlistens] at hq
      rcases h.told q hq with hheard | hpending | ⟨w, hw⟩
      · refine .inl (hheard.trans ?_)
        exact (Function.update_of_ne hqp ..).symm
      · refine .inr (.inl ?_)
        exact (Function.update_of_ne hqp ..).trans hpending
      · refine .inr (.inr ⟨w, hw.imp_left fun hwakes => ?_⟩)
        have hwp : w ≠ p := by
          rintro rfl
          simp [hidle, wakes] at hwakes
        rw [← hwakes]
        exact congrArg wakes (Function.update_of_ne hwp ..)

theorem listens_step (h : Listens s) {label : Label model P}
    (hstep : step s label = some next) : Listens next := by
  cases step_cases hstep with
  | ran hkilling _ hbase => exact h.driver (step_effect h.base hbase) hkilling
  | told => exact h.killFasync
  | opened happ => exact h.goto (by rw [happ]; rfl) (by decide)
  | owned happ => exact h.setOwner happ
  | registered happ => exact h.setAsync happ
  | installed happ => exact h.goto (by rw [happ]; rfl) (by decide)
  | handled happ _ _ _ hbase => exact h.mygets happ hbase
  | terminated | exited => exact h.finish
  | returned happ => exact h.goto (by rw [happ]; rfl) (by decide)

theorem Listens.init {s : State model P} (hs : (system model P).init s) : Listens s := by
  obtain ⟨hbase, happ, hqueue, -⟩ := hs
  refine ⟨inv_init hbase, ?_, fun p => ?_, fun p hp => ?_, fun p hp => ?_⟩
  · rw [hqueue]
    exact List.nodup_nil
  · simp [hqueue, happ p, App.listens]
  · simp [happ p, App.listens] at hp
  · simp [happ p, App.listens] at hp

theorem listens_of_reachable (h : (system model P).Reachable s) : Listens s :=
  h.invariant Listens (fun _ => .init) fun _ _ _ hi hstep => listens_step hi hstep

/-- The queue of the driver holds the open files that have `FASYNC` set, and no process that
listens misses what was accepted since: its signal is pending or on its way. -/
theorem no_signal_lost (h : (system model P).Reachable s) :
    s.fasyncQueue.Nodup ∧ (∀ p, p ∈ s.fasyncQueue ↔ (s.app p).listens = true) ∧
      ∀ p, (s.app p).listens = true → (∀ w, ¬ s.Announces w) → s.pending p = false →
        s.heard p = s.base.ledger.accepted.length := by
  have hlistens := listens_of_reachable h
  refine ⟨hlistens.nodup, hlistens.registered, fun p hp hwriters hpending => ?_⟩
  rcases hlistens.told p hp with hheard | htold | ⟨w, hw⟩
  · exact hheard.symm
  · rw [hpending] at htold
    contradiction
  · exact absurd hw (hwriters w)

def resting (model : DataModel) (P : Type*) [DecidableEq P] : State model P :=
  ⟨Blocking.created, fun _ => .outside, [], fun _ => false, fun _ => false, fun _ => false,
    fun _ => 0, fun _ => 0, fun _ => false⟩

theorem resting_init : (system model P).init (resting model P) :=
  ⟨Blocking.created_init, fun _ => rfl, rfl, fun _ => rfl⟩

/-- The program of `true` comes to its loop, and `false` writes 150 bytes. -/
def listenThenWrite : List (Label .ilp32 Bool) :=
  [.main true, .main true, .main true, .main true,
    .driver false (.write blankBuf (List.replicate 150 7) 150), .driver false .tick,
    .driver false .tick, .killFasync false]

/-- `mygets` reads once. -/
def handle : List (Label .ilp32 Bool) :=
  .deliver true ⟨100, blankBuf, [], 100⟩ :: List.replicate 5 (.driver true .tick) ++
    [.sigreturn true]

theorem handled_write_heard :
    ∃ s, (system .ilp32 Bool).run (resting .ilp32 Bool) (listenThenWrite ++ handle) = some s ∧
      s.fasyncQueue.Nodup ∧ true ∈ s.fasyncQueue ∧ false ∉ s.fasyncQueue ∧
      s.heard true = s.base.ledger.accepted.length := by
  have hfields : ((system .ilp32 Bool).run (resting .ilp32 Bool) (listenThenWrite ++ handle)).map
      (fun s => (s.app true, s.app false, s.pending true,
        (wakes (s.base.pc true) || s.killing true || wakes (s.base.pc false) ||
          s.killing false))) = some (.looping, .outside, false, false) := by
    decide +kernel
  obtain ⟨s, hrun, hs⟩ := Option.map_eq_some_iff.mp hfields
  simp only [Prod.mk.injEq, Bool.or_eq_false_iff] at hs
  obtain ⟨happ, hwriter, hpending, ⟨⟨htrue, htrue'⟩, hfalse⟩, hfalse'⟩ := hs
  obtain ⟨hnodup, hregistered, hheard⟩ :=
    no_signal_lost (System.reachable_of_run resting_init hrun)
  refine ⟨s, hrun, hnodup, ?_, ?_, ?_⟩
  · rw [hregistered, happ]
    rfl
  · rw [hregistered, hwriter]
    decide
  · refine hheard true (by rw [happ]; rfl) (fun w => ?_) hpending
    cases w <;> simp [State.Announces, *]

end FarsightDriver.Fifo.Signals
