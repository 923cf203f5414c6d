import FarsightDriver.Foundation.Tickets
import FarsightDriver.Foundation.Words

/-!
# The key driver

`myhandler` accepts an edge of the key as a press when more than 50 ticks have
passed since the last one, and sets `keycode` and `keyflag`.  `myread` waits
until `keyflag` is not 0, hands `keycode` to the user and clears `keyflag`.  It
ignores what the wait and `put_user` return, and so every call returns 1.

A press is accepted when its `keyflag` is set.  `accepted`, `left`,
`unreported`, `reports` and the tickets record what happened, and no step
reads them.
-/

namespace FarsightDriver.Key

open FarsightDriver.Foundation

def keyX : Int := 'X'.toNat

/-- The statement that `myhandler` comes to next. -/
inductive Handler where
  | idle
  | raise
  | finish
  deriving DecidableEq

inductive Pc where
  | idle
  | wait (writable : Bool)
  | putUser (writable : Bool) (ticket : Tickets.Entry)
  | clear (byte : Option (BitVec 8)) (ticket : Tickets.Entry)
  deriving DecidableEq

/-- A call that returned 1, with the byte it stored. -/
structure Report where
  byte : Option (BitVec 8)
  ticket : Tickets.Entry
  deriving DecidableEq

structure State (P : Type*) where
  keyflag : Int
  keycode : Int
  last : U32
  handler : Handler
  pc : P → Pc
  accepted : Nat
  left : Nat
  unreported : Bool
  reports : List Report

inductive Label (P : Type*) where
  | irq (jiffies : U32)
  | raise
  | finish (jiffies : U32)
  | call (p : P) (writable : Bool)
  | tick (p : P)
  | signal (p : P)

variable {P : Type*} [DecidableEq P]

/-! ## `myhandler` -/

def State.debounce (s : State P) (jiffies : U32) : State P :=
  if 50 < jiffies - s.last then { s with keycode := keyX, handler := .raise } else s

def State.raise (s : State P) : State P :=
  { s with
    keyflag := 1
    handler := .finish
    accepted := s.accepted + 1
    unreported := true }

def State.finish (s : State P) (jiffies : U32) : State P :=
  { s with last := jiffies, handler := .idle }

/-! ## `myread` -/

def State.goto (s : State P) (p : P) (pc : Pc) : State P :=
  { s with pc := Function.update s.pc p pc }

def State.leave (s : State P) (p : P) (writable : Bool) : State P :=
  { s.goto p (.putUser writable ⟨s.left, s.accepted⟩) with left := s.left + 1 }

def State.putUser (s : State P) (p : P) (writable : Bool) (ticket : Tickets.Entry) : State P :=
  { s.goto p (.clear (if writable then some (.ofInt 8 s.keycode) else none) ticket) with
    unreported := false }

def State.clear (s : State P) (p : P) (byte : Option (BitVec 8)) (ticket : Tickets.Entry) :
    State P :=
  { s.goto p .idle with keyflag := 0, reports := s.reports ++ [⟨byte, ticket⟩] }

def step (s : State P) : Label P → Option (State P)
  | .irq jiffies => if s.handler = .idle then some (s.debounce jiffies) else none
  | .raise => if s.handler = .raise then some s.raise else none
  | .finish jiffies => if s.handler = .finish then some (s.finish jiffies) else none
  | .call p writable =>
      match s.pc p with
      | .idle => some (s.goto p (.wait writable))
      | _ => none
  | .tick p =>
      match s.pc p with
      | .idle => none
      | .wait writable => if s.keyflag ≠ 0 then some (s.leave p writable) else none
      | .putUser writable ticket => some (s.putUser p writable ticket)
      | .clear byte ticket => some (s.clear p byte ticket)
  | .signal p =>
      match s.pc p with
      | .wait writable => some (s.leave p writable)
      | _ => none

def system (P : Type*) [DecidableEq P] : System (State P) (Label P) where
  init s := s.keyflag = 0 ∧ s.handler = .idle ∧ (∀ p, s.pc p = .idle) ∧ s.accepted = 0 ∧
    s.left = 0 ∧ s.unreported = false ∧ s.reports = []
  step := step

def start : State P := ⟨0, 0, 0, .idle, fun _ => .idle, 0, 0, false, []⟩

theorem start_init : (system P).init start := ⟨rfl, rfl, fun _ => rfl, rfl, rfl, rfl, rfl⟩

/-! ## What a step can do -/

inductive Step (s : State P) : Label P → State P → Prop
  | debounced {jiffies : U32} (hhandler : s.handler = .idle) :
      Step s (.irq jiffies) (s.debounce jiffies)
  | raised (hhandler : s.handler = .raise) : Step s .raise s.raise
  | finished {jiffies : U32} (hhandler : s.handler = .finish) :
      Step s (.finish jiffies) (s.finish jiffies)
  | called {p : P} {writable : Bool} (hpc : s.pc p = .idle) :
      Step s (.call p writable) (s.goto p (.wait writable))
  | woken {p : P} {writable : Bool} (hpc : s.pc p = .wait writable) (hflag : s.keyflag ≠ 0) :
      Step s (.tick p) (s.leave p writable)
  | signalled {p : P} {writable : Bool} (hpc : s.pc p = .wait writable) :
      Step s (.signal p) (s.leave p writable)
  | told {p : P} {writable : Bool} {ticket : Tickets.Entry}
      (hpc : s.pc p = .putUser writable ticket) :
      Step s (.tick p) (s.putUser p writable ticket)
  | cleared {p : P} {byte : Option (BitVec 8)} {ticket : Tickets.Entry}
      (hpc : s.pc p = .clear byte ticket) : Step s (.tick p) (s.clear p byte ticket)

theorem step_cases {s next : State P} {label : Label P} (h : step s label = some next) :
    Step s label next := by
  cases label with
  | irq jiffies =>
      simp only [step, Option.ite_none_right_eq_some, Option.some.injEq] at h
      exact h.2 ▸ .debounced h.1
  | raise =>
      simp only [step, Option.ite_none_right_eq_some, Option.some.injEq] at h
      exact h.2 ▸ .raised h.1
  | finish jiffies =>
      simp only [step, Option.ite_none_right_eq_some, Option.some.injEq] at h
      exact h.2 ▸ .finished h.1
  | call p writable =>
      cases hpc : s.pc p <;> simp only [step, hpc, reduceCtorEq, Option.some.injEq] at h
      exact h ▸ .called hpc
  | tick p =>
      cases hpc : s.pc p with
      | idle => simp only [step, hpc, reduceCtorEq] at h
      | wait writable =>
          simp only [step, hpc, Option.ite_none_right_eq_some, Option.some.injEq] at h
          exact h.2 ▸ .woken hpc h.1
      | putUser writable ticket =>
          simp only [step, hpc, Option.some.injEq] at h
          exact h ▸ .told hpc
      | clear byte ticket =>
          simp only [step, hpc, Option.some.injEq] at h
          exact h ▸ .cleared hpc
  | signal p =>
      cases hpc : s.pc p <;> simp only [step, hpc, reduceCtorEq, Option.some.injEq] at h
      exact h ▸ .signalled hpc

end FarsightDriver.Key
