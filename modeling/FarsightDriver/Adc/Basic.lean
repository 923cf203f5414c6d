import FarsightDriver.Foundation.System
import FarsightDriver.Foundation.Words

/-!
# The ADC driver

`fs4412_adc_read` starts a conversion, waits until `flags` is 1 and reads
`ADCDAT`; `adc_interrupt` sets `flags`.  Nothing says which conversion a set
flag belongs to: it is cleared at the end of a successful read only, and a
signal ends the wait as well.

Of the converter it is assumed that a write of the start bit begins one
conversion, that `ADCDAT` holds the result of the last completed one, and that
each completion raises the interrupt once.  Conversions are numbered in the
order of their starts; `results`, `last` and the samples record what happened,
and no step reads them.
-/

namespace FarsightDriver.Adc

open FarsightDriver.Foundation

def einval : Int := 22

def efault : Int := 14

structure Hardware where
  adcmux : U32
  adcdat : U32
  converting : List Nat
  pending : Nat
  started : Nat
  last : Option Nat
  results : List (Nat × U32)
  deriving DecidableEq

def Hardware.writeMux (hw : Hardware) (value : U32) : Hardware := { hw with adcmux := value }

/-- Bit 0 of `ADCCON` is the start bit. -/
def Hardware.writeCon (hw : Hardware) (value : U32) : Hardware :=
  if value &&& 1 = 1 then
    { hw with converting := hw.converting ++ [hw.started], started := hw.started + 1 }
  else hw

def Hardware.complete (hw : Hardware) (number : Nat) (value : U32) : Hardware :=
  { hw with
    adcdat := value
    converting := hw.converting.erase number
    pending := hw.pending + 1
    last := some number
    results := hw.results ++ [(number, value)] }

/-- The write of `ADCCLRINT` acknowledges one interrupt. -/
def Hardware.writeClrInt (hw : Hardware) : Hardware := { hw with pending := hw.pending - 1 }

def adcconStart : U32 := 1 <<< 0 ||| 1 <<< 14 ||| 0xff <<< 6 ||| 1 <<< 16

/-- The arguments of a read; `room` is how many bytes the user's buffer takes. -/
structure ReadArgs where
  count : U32
  room : Nat
  deriving DecidableEq

inductive Pc where
  | idle
  | start (args : ReadArgs)
  | wait (args : ReadArgs) (own : Nat)
  | readDat (args : ReadArgs) (own : Nat)
  | copy (args : ReadArgs) (own : Nat) (source : Option Nat) (data : U32)
  | clear (args : ReadArgs) (own : Nat) (source : Option Nat) (data : U32)
  deriving DecidableEq

/-- A read that returned 4: the conversion it started, the one it read, and the data. -/
structure Sample where
  own : Nat
  source : Option Nat
  data : U32
  deriving DecidableEq

structure State (P : Type*) where
  hw : Hardware
  flags : Int
  pc : P → Pc
  ret : P → Int
  samples : List Sample

inductive Label (P : Type*) where
  | call (p : P) (args : ReadArgs)
  | tick (p : P)
  | signal (p : P)
  | complete (number : Nat) (value : U32)
  | interrupt

variable {P : Type*} [DecidableEq P]

def State.goto (s : State P) (p : P) (pc : Pc) : State P :=
  { s with pc := Function.update s.pc p pc }

def State.returns (s : State P) (p : P) (value : Int) : State P :=
  { s.goto p .idle with ret := Function.update s.ret p value }

def State.startConversion (s : State P) (p : P) (args : ReadArgs) : State P :=
  { s.goto p (.wait args s.hw.started) with hw := (s.hw.writeMux 3).writeCon adcconStart }

def State.adcInterrupt (s : State P) : State P :=
  { s with flags := 1, hw := s.hw.writeClrInt }

def State.clearFlags (s : State P) (p : P) (args : ReadArgs) (sample : Sample) : State P :=
  { s.returns p args.count.toNat with flags := 0, samples := s.samples ++ [sample] }

def step (s : State P) : Label P → Option (State P)
  | .call p args =>
      match s.pc p with
      | .idle => some (if args.count ≠ 4 then s.returns p (-einval) else s.goto p (.start args))
      | _ => none
  | .tick p =>
      match s.pc p with
      | .idle => none
      | .start args => some (s.startConversion p args)
      | .wait args own => if s.flags = 1 then some (s.goto p (.readDat args own)) else none
      | .readDat args own =>
          some (s.goto p (.copy args own s.hw.last (s.hw.adcdat &&& 0xfff)))
      | .copy args own source data =>
          some (if args.room < 4 then s.returns p (-efault)
            else s.goto p (.clear args own source data))
      | .clear args own source data => some (s.clearFlags p args ⟨own, source, data⟩)
  | .signal p =>
      match s.pc p with
      | .wait args own => some (s.goto p (.readDat args own))
      | _ => none
  | .complete number value =>
      if number ∈ s.hw.converting then some { s with hw := s.hw.complete number value } else none
  | .interrupt => if 0 < s.hw.pending then some s.adcInterrupt else none

def Hardware.reset : Hardware := ⟨0, 0, [], 0, 0, none, []⟩

def system (P : Type*) [DecidableEq P] : System (State P) (Label P) where
  init s := s.hw = .reset ∧ s.flags = 0 ∧ (∀ p, s.pc p = .idle) ∧ s.samples = []
  step := step

def start : State P := ⟨.reset, 0, fun _ => .idle, fun _ => 0, []⟩

theorem start_init : (system P).init start := ⟨rfl, rfl, fun _ => rfl, rfl⟩

theorem writeCon_start (hw : Hardware) :
    hw.writeCon adcconStart =
      { hw with converting := hw.converting ++ [hw.started], started := hw.started + 1 } :=
  if_pos (by decide)

/-! ## What a step can do -/

inductive Step (s : State P) : Label P → State P → Prop
  | refused {p : P} {args : ReadArgs} (hpc : s.pc p = .idle) :
      Step s (.call p args) (s.returns p (-einval))
  | called {p : P} {args : ReadArgs} (hpc : s.pc p = .idle) (hcount : args.count = 4) :
      Step s (.call p args) (s.goto p (.start args))
  | started {p : P} {args : ReadArgs} (hpc : s.pc p = .start args) :
      Step s (.tick p) (s.startConversion p args)
  | woken {p : P} {args : ReadArgs} {own : Nat} (hpc : s.pc p = .wait args own)
      (hflags : s.flags = 1) : Step s (.tick p) (s.goto p (.readDat args own))
  | signalled {p : P} {args : ReadArgs} {own : Nat} (hpc : s.pc p = .wait args own) :
      Step s (.signal p) (s.goto p (.readDat args own))
  | sampled {p : P} {args : ReadArgs} {own : Nat} (hpc : s.pc p = .readDat args own) :
      Step s (.tick p) (s.goto p (.copy args own s.hw.last (s.hw.adcdat &&& 0xfff)))
  | faulted {p : P} {args : ReadArgs} {own : Nat} {source : Option Nat} {data : U32}
      (hpc : s.pc p = .copy args own source data) : Step s (.tick p) (s.returns p (-efault))
  | copied {p : P} {args : ReadArgs} {own : Nat} {source : Option Nat} {data : U32}
      (hpc : s.pc p = .copy args own source data) :
      Step s (.tick p) (s.goto p (.clear args own source data))
  | cleared {p : P} {args : ReadArgs} {own : Nat} {source : Option Nat} {data : U32}
      (hpc : s.pc p = .clear args own source data) :
      Step s (.tick p) (s.clearFlags p args ⟨own, source, data⟩)
  | completed {number : Nat} {value : U32} (hmem : number ∈ s.hw.converting) :
      Step s (.complete number value) { s with hw := s.hw.complete number value }
  | interrupted (hpending : 0 < s.hw.pending) : Step s .interrupt s.adcInterrupt

theorem step_tick_cases {s next : State P} {p : P} (h : step s (.tick p) = some next) :
    Step s (.tick p) next := by
  cases hpc : s.pc p with
  | idle => simp only [step, hpc, reduceCtorEq] at h
  | start args =>
      simp only [step, hpc, Option.some.injEq] at h
      exact h ▸ .started hpc
  | wait args own =>
      simp only [step, hpc, Option.ite_none_right_eq_some, Option.some.injEq] at h
      exact h.2 ▸ .woken hpc h.1
  | readDat args own =>
      simp only [step, hpc, Option.some.injEq] at h
      exact h ▸ .sampled hpc
  | copy args own source data =>
      simp only [step, hpc, Option.some.injEq] at h
      subst h
      split
      · exact .faulted hpc
      · exact .copied hpc
  | clear args own source data =>
      simp only [step, hpc, Option.some.injEq] at h
      exact h ▸ .cleared hpc

theorem step_cases {s next : State P} {label : Label P} (h : step s label = some next) :
    Step s label next := by
  cases label with
  | call p args =>
      cases hpc : s.pc p <;> simp only [step, hpc, reduceCtorEq, Option.some.injEq] at h
      subst h
      split
      case isTrue => exact .refused hpc
      case isFalse hcount => exact .called hpc (not_not.mp hcount)
  | tick p => exact step_tick_cases h
  | signal p =>
      cases hpc : s.pc p <;> simp only [step, hpc, reduceCtorEq, Option.some.injEq] at h
      exact h ▸ .signalled hpc
  | complete number value =>
      simp only [step, Option.ite_none_right_eq_some, Option.some.injEq] at h
      exact h.2 ▸ .completed h.1
  | interrupt =>
      simp only [step, Option.ite_none_right_eq_some, Option.some.injEq] at h
      exact h.2 ▸ .interrupted h.1

/-! ## A read in progress was asked for four bytes -/

def Pc.args : Pc → Option ReadArgs
  | .idle => none
  | .start args | .wait args _ | .readDat args _ | .copy args _ _ _ | .clear args _ _ _ =>
      some args

def FourBytes (s : State P) : Prop := ∀ p args, (s.pc p).args = some args → args.count = 4

theorem FourBytes.goto {s : State P} (h : FourBytes s) {p : P} {pc : Pc}
    (hpc : ∀ args, pc.args = some args → args.count = 4) : FourBytes (s.goto p pc) :=
  (Function.forall_update_iff s.pc fun _ pc => ∀ args, pc.args = some args → args.count = 4).mpr
    ⟨hpc, fun q _ => h q⟩

theorem fourBytes_step {s next : State P} (h : FourBytes s) {label : Label P}
    (hstep : step s label = some next) : FourBytes next := by
  have hsame {p : P} {pc : Pc} (hargs : pc.args = (s.pc p).args) : FourBytes (s.goto p pc) :=
    h.goto fun args hpc => h p args (hargs ▸ hpc)
  have hidle (p : P) : FourBytes (s.goto p .idle) := h.goto nofun
  cases step_cases hstep with
  | refused => exact hidle _
  | @called p args hpc hcount => exact h.goto fun _ hargs => Option.some.inj hargs ▸ hcount
  | started hpc => exact hsame (by rw [hpc]; rfl)
  | woken hpc => exact hsame (by rw [hpc]; rfl)
  | signalled hpc => exact hsame (by rw [hpc]; rfl)
  | sampled hpc => exact hsame (by rw [hpc]; rfl)
  | faulted => exact hidle _
  | copied hpc => exact hsame (by rw [hpc]; rfl)
  | cleared => exact hidle _
  | completed => exact h
  | interrupted => exact h

theorem fourBytes_of_reachable {s : State P} (h : (system P).Reachable s) : FourBytes s := by
  refine h.invariant FourBytes ?_ fun _ _ _ hi hs => fourBytes_step hi hs
  rintro s ⟨-, -, hidle, -⟩ p args hargs
  rw [hidle p] at hargs
  contradiction

/-- The samples are those of the calls that return 4. -/
theorem clear_returns_four {s : State P} (h : (system P).Reachable s) {p : P} {args : ReadArgs}
    {own : Nat} {source : Option Nat} {data : U32} (hpc : s.pc p = .clear args own source data) :
    ∃ next, step s (.tick p) = some next ∧ next.ret p = 4 ∧
      next.samples = s.samples ++ [⟨own, source, data⟩] := by
  have hcount := fourBytes_of_reachable h p args (by rw [hpc]; rfl)
  refine ⟨s.clearFlags p args ⟨own, source, data⟩, by simp only [step, hpc], ?_, rfl⟩
  simp [State.clearFlags, State.returns, hcount]

end FarsightDriver.Adc
