import FarsightDriver.Foundation.Sleepers
import FarsightDriver.Adc.Basic

/-!
# Readers asleep on `readq`

`fs4412_adc_read` waits by `wait_event_interruptible` and `adc_interrupt` wakes
`readq` after setting `flags`.  The wait is taken apart into its tests, the
registration and the sleep.
-/

namespace FarsightDriver.Adc

open FarsightDriver.Foundation

variable {P : Type*} [DecidableEq P]

def Pc.waits : Pc → Bool
  | .wait _ _ => true
  | _ => false

def Pc.starts : Pc → Bool
  | .start _ => true
  | _ => false

def effect (s : State P) : Label P → Sleepers.Effect P
  | .tick p =>
      if (s.pc p).starts then .enter p else if (s.pc p).waits then .leave p else .other
  | .signal p => .interrupt p
  | .interrupt => .raise
  | .call _ _ | .complete _ _ => .other

variable {s next : State P}

theorem waits_goto (s : State P) (p : P) (pc : Pc) :
    (fun q => ((s.goto p pc).pc q).waits) =
      Function.update (fun q => (s.pc q).waits) p pc.waits := by
  funext q
  by_cases hq : q = p
  · subst hq
    simp [State.goto]
  · simp [State.goto, hq]

omit [DecidableEq P] in
theorem effect_other {p : P} (hwaits : (s.pc p).waits = false) (hstarts : (s.pc p).starts = false) :
    effect s (.tick p) = .other := by
  simp [effect, hwaits, hstarts]

theorem waits_after {label : Label P} (hstep : step s label = some next) :
    (fun q => (next.pc q).waits) = (effect s label).after fun q => (s.pc q).waits := by
  have hsame {p : P} (pc : Pc) (hold : (s.pc p).waits = false) (hnew : pc.waits = false) :
      (fun q => ((s.goto p pc).pc q).waits) = fun q => (s.pc q).waits :=
    (waits_goto s p pc).trans (Function.update_eq_self_iff.mpr (hnew.trans hold.symm))
  cases step_cases hstep with
  | refused hpc => exact hsame .idle (by rw [hpc]; rfl) rfl
  | called hpc => exact hsame _ (by rw [hpc]; rfl) rfl
  | started hpc =>
      simp only [effect, hpc, Pc.starts, if_true]
      exact waits_goto s _ _
  | woken hpc | signalled hpc =>
      simp only [effect, hpc, Pc.waits, Pc.starts, if_true, Bool.false_eq_true, if_false]
      exact waits_goto s _ _
  | sampled hpc | copied hpc =>
      rw [effect_other (by rw [hpc]; rfl) (by rw [hpc]; rfl)]
      exact hsame _ (by rw [hpc]; rfl) rfl
  | faulted hpc | cleared hpc =>
      rw [effect_other (by rw [hpc]; rfl) (by rw [hpc]; rfl)]
      exact hsame .idle (by rw [hpc]; rfl) rfl
  | completed | interrupted => rfl

theorem enters {label : Label P} {p : P} (hstep : step s label = some next)
    (heffect : effect s label = .enter p) :
    (s.pc p).waits = false ∧ next.flags = s.flags := by
  cases step_cases hstep with
  | started hpc =>
      simp only [effect, hpc, Pc.starts, if_true] at heffect
      cases heffect
      exact ⟨by rw [hpc]; rfl, rfl⟩
  | woken hpc | sampled hpc | faulted hpc | copied hpc | cleared hpc =>
      simp [effect, hpc, Pc.waits, Pc.starts] at heffect
  | refused | called | signalled | completed | interrupted => cases heffect

theorem leaves {label : Label P} {p : P} (hstep : step s label = some next)
    (heffect : effect s label = .leave p ∨ effect s label = .interrupt p) :
    (s.pc p).waits = true ∧ next.flags = s.flags := by
  cases step_cases hstep with
  | woken hpc =>
      simp only [effect, hpc, Pc.waits, Pc.starts, if_true, Bool.false_eq_true, if_false] at heffect
      rcases heffect with heffect | heffect <;> cases heffect
      exact ⟨by rw [hpc]; rfl, rfl⟩
  | signalled hpc =>
      rcases heffect with heffect | heffect <;> cases heffect
      exact ⟨by rw [hpc]; rfl, rfl⟩
  | started hpc | sampled hpc | faulted hpc | copied hpc | cleared hpc =>
      simp [effect, hpc, Pc.waits, Pc.starts] at heffect
  | refused | called | completed | interrupted =>
      rcases heffect with heffect | heffect <;> cases heffect

theorem lowers {label : Label P} (hstep : step s label = some next)
    (heffect : effect s label = .afterWake ∨ effect s label = .other)
    (hflags : next.flags = 1) : s.flags = 1 := by
  cases step_cases hstep with
  | cleared => exact absurd hflags zero_ne_one
  | interrupted => rcases heffect with heffect | heffect <;> cases heffect
  | refused | called | started | woken | signalled | sampled | faulted | copied | completed =>
      exact hflags

/-- Only `adc_interrupt` sets `flags`, and it wakes `readq` before it is done. -/
def waits (P : Type*) [DecidableEq P] : Sleepers.Waits (system P) P where
  condition s := s.flags = 1
  waiting s p := (s.pc p).waits
  effect := effect
  waiting_after := waits_after
  enters hstep heffect := by
    obtain ⟨hout, hflags⟩ := enters hstep heffect
    exact ⟨hout, by rw [hflags]⟩
  leaves hstep heffect := by
    obtain ⟨hin, hflags⟩ := leaves hstep heffect
    exact ⟨hin, by rw [hflags]⟩
  lowers hstep heffect hnext :=
    decide_eq_true (lowers hstep heffect (of_decide_eq_true hnext))
  init := by
    rintro s ⟨-, -, hidle, -⟩ p
    rw [hidle p]
    rfl

/-! ## A completed conversion is read -/

/-- The rest of the call after the wait, when the user's buffer takes the data. -/
theorem rest_of_call {p : P} {args : ReadArgs} {own : Nat} (hflags : s.flags = 1)
    (hpc : s.pc p = .wait args own) (hroom : 4 ≤ args.room) :
    ∃ finish, step s (.tick p) = some (s.goto p (.readDat args own)) ∧
      (system P).GuardedRun (fun s label => effect s label = .other)
        (s.goto p (.readDat args own)) [.tick p, .tick p, .tick p] ∧
      (system P).run (s.goto p (.readDat args own)) [.tick p, .tick p, .tick p] = some finish ∧
      finish.flags = 0 ∧ finish.ret p = args.count.toNat ∧
      finish.samples = s.samples ++ [⟨own, s.hw.last, s.hw.adcdat &&& 0xfff⟩] := by
  let data := s.hw.adcdat &&& 0xfff
  let left := s.goto p (.readDat args own)
  let sampled := left.goto p (.copy args own s.hw.last data)
  let copied := sampled.goto p (.clear args own s.hw.last data)
  have hleft : left.pc p = .readDat args own := Function.update_self ..
  have hsampled : sampled.pc p = .copy args own s.hw.last data := Function.update_self ..
  have hcopied : copied.pc p = .clear args own s.hw.last data := Function.update_self ..
  have hsample : (system P).step left (.tick p) = some sampled := by
    simp only [system, step, hleft]
    rfl
  have hcopy : (system P).step sampled (.tick p) = some copied := by
    simp only [system, step, hsampled, if_neg (not_lt.mpr hroom)]
    rfl
  have hclear : (system P).step copied (.tick p) =
      some (copied.clearFlags p args ⟨own, s.hw.last, data⟩) := by
    simp only [system, step, hcopied]
  refine ⟨copied.clearFlags p args ⟨own, s.hw.last, data⟩, ?_, ?_, ?_, rfl, ?_, rfl⟩
  · simp only [step, hpc, if_pos hflags]
  · refine ⟨effect_other (by rw [hleft]; rfl) (by rw [hleft]; rfl), ?_⟩
    rw [hsample]
    refine ⟨effect_other (by rw [hsampled]; rfl) (by rw [hsampled]; rfl), ?_⟩
    rw [hcopy]
    refine ⟨effect_other (by rw [hcopied]; rfl) (by rw [hcopied]; rfl), ?_⟩
    rw [hclear]
    trivial
  · rw [System.run_cons, hsample, Option.bind_some, System.run_cons, hcopy, Option.bind_some,
      System.run_cons, hclear]
    rfl
  · exact Function.update_self ..

theorem completion_reaches_reader {s : Sleepers.State (State P) P}
    (h : (Sleepers.system (waits P)).Reachable s) (hflags : s.base.flags = 1) {p : P}
    {args : ReadArgs} {own : Nat} (hpc : s.base.pc p = .wait args own) :
    (system P).Reachable s.base ∧
      (s.waking = false → s.place p = .asleep → s.runnable p = true) ∧
      (4 ≤ args.room → ∃ labels next,
        (∀ label ∈ labels, label = .wakeUp ∨ label = .resume p ∨ label = .prepare p) ∧
        (Sleepers.system (waits P)).run s
          (labels ++ [.base (.tick p), .base (.tick p), .base (.tick p), .base (.tick p)]) =
            some next ∧
        next.base.flags = 0 ∧ next.base.ret p = 4 ∧ next.base.samples = s.base.samples ++
          [⟨own, s.base.hw.last, s.base.hw.adcdat &&& 0xfff⟩]) := by
  have hbase := Sleepers.base_reachable h
  have hcondition : (waits P).condition s.base = true := decide_eq_true hflags
  have hwaiting : (waits P).waiting s.base p = true := by
    change (s.base.pc p).waits = true
    rw [hpc]
    rfl
  have heffect : (waits P).effect s.base (.tick p) = .leave p := by
    change effect s.base (.tick p) = _
    simp only [effect, hpc, Pc.waits, Pc.starts, if_true, Bool.false_eq_true, if_false]
  refine ⟨hbase, fun hwoken hasleep => ?_, fun hroom => ?_⟩
  · exact Sleepers.sleeper_runnable h hcondition hwoken hwaiting hasleep
  · obtain ⟨finish, hleave, hother, hrun, hcleared, hret, hsamples⟩ :=
      rest_of_call hflags hpc hroom
    obtain ⟨labels, next, hlabels, hnext, rfl⟩ :=
      Sleepers.served h hcondition hwaiting heffect hleave hother hrun
    refine ⟨labels, next, hlabels, hnext, hcleared, ?_, hsamples⟩
    rw [hret, fourBytes_of_reachable hbase p args (by rw [hpc]; rfl)]
    rfl

def resting (P : Type*) [DecidableEq P] : Sleepers.State (State P) P :=
  ⟨start, fun _ => .first, fun _ => false, fun _ => false, false⟩

/-- A read starts a conversion and goes to sleep, and the conversion completes. -/
def sleepThenComplete : List (Sleepers.Label (Label Unit) Unit) :=
  [.base (.call () ⟨4, 4⟩), .base (.tick ()), .start (), .prepare (), .sleep (),
    .base (.complete 0 0x1234), .base .interrupt]

theorem woken_sleeper_samples :
    ∃ s, (Sleepers.system (waits Unit)).run (resting Unit) sleepThenComplete = some s ∧
      s.place () = .asleep ∧ ∃ labels next,
        (Sleepers.system (waits Unit)).run s labels = some next ∧ next.base.ret () = 4 ∧
        next.base.samples = [⟨0, some 0, 0x234⟩] := by
  have hrun : ((Sleepers.system (waits Unit)).run (resting Unit) sleepThenComplete).isSome := rfl
  let s := ((Sleepers.system (waits Unit)).run (resting Unit) sleepThenComplete).get hrun
  have hs : (Sleepers.system (waits Unit)).run (resting Unit) sleepThenComplete = some s :=
    (Option.some_get hrun).symm
  have hreachable := System.reachable_of_run (S := Sleepers.system (waits Unit))
    ⟨start_init, rfl⟩ hs
  obtain ⟨-, -, hserved⟩ := completion_reaches_reader hreachable
    (show s.base.flags = 1 from rfl) (show s.base.pc () = .wait ⟨4, 4⟩ 0 from rfl)
  obtain ⟨labels, next, -, hnext, -, hret, hsamples⟩ := hserved (by decide)
  have hdata : s.base.hw.adcdat &&& 0xfff = 0x234 := by
    rw [show s.base.hw.adcdat = 0x1234 from rfl]
    decide
  rw [hdata] at hsamples
  exact ⟨s, hs, rfl, _, next, hnext, hret, hsamples⟩

end FarsightDriver.Adc
