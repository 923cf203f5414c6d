import FarsightDriver.Adc.Basic

/-!
# Whose conversion a read returns

A read that passes its wait before its own conversion is complete returns the
result of another one, or none at all: a set flag may be left over from a call
that failed or was interrupted, or belong to another caller, and a signal lets
the read pass without any flag.
-/

namespace FarsightDriver.Adc

open FarsightDriver.Foundation

variable {P : Type*} [DecidableEq P]

def Sample.Fresh (results : List (Nat × U32)) (sample : Sample) : Prop :=
  sample.source = some sample.own ∧
    ∃ value, (sample.own, value) ∈ results ∧ sample.data = value &&& 0xfff

def Pc.reading : Pc → Bool
  | .readDat _ _ => true
  | _ => false

/--
A read leaves its wait when its own conversion is the last completed one, and
none completes before it has read `ADCDAT`.
-/
def OwnCompletion (s : State P) : Label P → Prop
  | .tick p | .signal p =>
      match s.pc p with
      | .wait _ own => s.hw.last = some own
      | _ => True
  | .complete _ _ => ∀ q, (s.pc q).reading = false
  | _ => True

instance [Fintype P] (s : State P) : (label : Label P) → Decidable (OwnCompletion s label)
  | .tick p | .signal p =>
      match h : s.pc p with
      | .wait _ own => decidable_of_iff (s.hw.last = some own) (by simp only [OwnCompletion, h])
      | .idle | .start _ | .readDat _ _ | .copy _ _ _ _ | .clear _ _ _ _ =>
          .isTrue (by simp only [OwnCompletion, h])
  | .complete _ _ => inferInstanceAs (Decidable (∀ _, _))
  | .call _ _ | .interrupt => .isTrue trivial

def Pc.Facts (hw : Hardware) : Pc → Prop
  | .readDat _ own => hw.last = some own
  | .copy _ own source data | .clear _ own source data =>
      Sample.Fresh hw.results ⟨own, source, data⟩
  | _ => True

structure Inv (s : State P) : Prop where
  dat : ∀ number, s.hw.last = some number → (number, s.hw.adcdat) ∈ s.hw.results
  locals : ∀ p, (s.pc p).Facts s.hw
  fresh : ∀ sample ∈ s.samples, sample.Fresh s.hw.results

theorem Sample.Fresh.mono {results later : List (Nat × U32)} {sample : Sample}
    (h : sample.Fresh results) (hsub : results ⊆ later) : sample.Fresh later := by
  obtain ⟨hsource, value, hmem, hdata⟩ := h
  exact ⟨hsource, value, hsub hmem, hdata⟩

theorem Pc.Facts.complete {hw : Hardware} {pc : Pc} (h : pc.Facts hw)
    (hout : pc.reading = false) (number : Nat) (value : U32) :
    pc.Facts (hw.complete number value) := by
  have hsub : hw.results ⊆ (hw.complete number value).results :=
    List.subset_append_left _ _
  cases pc with
  | readDat args own => contradiction
  | copy args own source data => exact Sample.Fresh.mono h hsub
  | clear args own source data => exact Sample.Fresh.mono h hsub
  | _ => trivial

theorem locals_update {s : State P} {p : P} {pc : Pc} (h : ∀ q, (s.pc q).Facts s.hw)
    (hself : pc.Facts s.hw) : ∀ q, ((s.goto p pc).pc q).Facts s.hw :=
  (Function.forall_update_iff s.pc fun _ pc => pc.Facts s.hw).mpr ⟨hself, fun q _ => h q⟩

variable {s next : State P}

theorem Inv.goto (h : Inv s) {p : P} {pc : Pc} (hself : pc.Facts s.hw) : Inv (s.goto p pc) :=
  ⟨h.dat, locals_update h.locals hself, h.fresh⟩

theorem Inv.returns (h : Inv s) (p : P) (value : Int) : Inv (s.returns p value) :=
  ⟨h.dat, locals_update h.locals trivial, h.fresh⟩

theorem Inv.startConversion (h : Inv s) (p : P) (args : ReadArgs) :
    Inv (s.startConversion p args) := by
  have hgoto : Inv (s.goto p (.wait args s.hw.started)) := h.goto trivial
  unfold State.startConversion
  rw [writeCon_start]
  refine ⟨hgoto.dat, fun q => ?_, hgoto.fresh⟩
  have hfacts := hgoto.locals q
  cases hpc : (s.goto p (.wait args s.hw.started)).pc q <;> rw [hpc] at hfacts <;> exact hfacts

theorem Inv.clearFlags (h : Inv s) {p : P} {args : ReadArgs} {sample : Sample}
    (hfresh : sample.Fresh s.hw.results) : Inv (s.clearFlags p args sample) := by
  have hreturns := h.returns p args.count.toNat
  refine ⟨hreturns.dat, hreturns.locals, fun other hmem => ?_⟩
  rcases List.mem_append.mp hmem with hold | hnew
  · exact h.fresh other hold
  · exact List.mem_singleton.mp hnew ▸ hfresh

omit [DecidableEq P] in
theorem inv_complete (h : Inv s) {number : Nat} {value : U32}
    (hguard : OwnCompletion s (.complete number value)) :
    Inv { s with hw := s.hw.complete number value } := by
  refine ⟨fun other hlast => ?_, fun q => (h.locals q).complete (hguard q) number value,
    fun sample hmem => (h.fresh sample hmem).mono (List.subset_append_left _ _)⟩
  simp only [Hardware.complete, Option.some.injEq] at hlast ⊢
  rw [hlast]
  exact List.mem_append_right _ (List.mem_singleton_self _)

omit [DecidableEq P] in
theorem inv_interrupt (h : Inv s) : Inv s.adcInterrupt := by
  refine ⟨h.dat, fun q => ?_, h.fresh⟩
  have hfacts := h.locals q
  simp only [State.adcInterrupt]
  cases hpc : s.pc q <;> rw [hpc] at hfacts <;> exact hfacts

theorem inv_step (h : Inv s) {label : Label P} (hguard : OwnCompletion s label)
    (hstep : step s label = some next) : Inv next := by
  have hlocal {p : P} {pc : Pc} (hpc : s.pc p = pc) : pc.Facts s.hw := hpc ▸ h.locals p
  cases step_cases hstep with
  | refused => exact h.returns _ _
  | called => exact h.goto trivial
  | @started p args hpc => exact h.startConversion p args
  | woken hpc =>
      simp only [OwnCompletion, hpc] at hguard
      exact h.goto hguard
  | signalled hpc =>
      simp only [OwnCompletion, hpc] at hguard
      exact h.goto hguard
  | @sampled p args own hpc =>
      have hlast : s.hw.last = some own := hlocal hpc
      exact h.goto ⟨hlast, _, h.dat own hlast, rfl⟩
  | faulted => exact h.returns _ _
  | @copied p args own source data hpc =>
      have hfresh : Sample.Fresh s.hw.results ⟨own, source, data⟩ := hlocal hpc
      exact h.goto hfresh
  | cleared hpc => exact h.clearFlags (hlocal hpc)
  | completed => exact inv_complete h hguard
  | interrupted => exact inv_interrupt h

theorem inv_init (h : (system P).init s) : Inv s := by
  obtain ⟨hhw, -, hidle, hsamples⟩ := h
  refine ⟨fun number hlast => ?_, fun p => ?_, fun sample hmem => ?_⟩
  · rw [hhw] at hlast
    contradiction
  · rw [hidle p]
    trivial
  · rw [hsamples] at hmem
    contradiction

theorem inv_of_reachable (h : (system P).ReachableWith OwnCompletion s) : Inv s :=
  h.invariant Inv (fun _ => inv_init) fun _ _ _ hi hg hs => inv_step hi hg hs

/--
A read is called when no other one is in progress and nothing is left over from
earlier ones, and a signal ends a wait only when the flag is set anyway.
-/
def OneAtATime (s : State P) : Label P → Prop
  | .call _ _ =>
      (∀ q, s.pc q = .idle) ∧ s.flags = 0 ∧ s.hw.converting = [] ∧ s.hw.pending = 0
  | .signal _ => s.flags = 1
  | _ => True

def Pc.SoloFacts (flags : Int) (hw : Hardware) : Pc → Prop
  | .idle => True
  | .start _ => flags = 0 ∧ hw.converting = [] ∧ hw.pending = 0
  | .wait _ own =>
      (flags = 0 ∧ hw.converting = [own] ∧ hw.pending = 0) ∨
        (hw.converting = [] ∧ hw.last = some own)
  | .readDat _ _ | .copy _ _ _ _ | .clear _ _ _ _ => hw.converting = []

/-- Only one process is in a call. -/
structure Solo (s : State P) : Prop where
  others : ∀ p q, s.pc p ≠ .idle → q ≠ p → s.pc q = .idle
  locals : ∀ p, (s.pc p).SoloFacts s.flags s.hw

theorem Solo.update {p : P} {pc : Pc} (hpc : next.pc = Function.update s.pc p pc)
    (hothers : ∀ q, q ≠ p → s.pc q = .idle) (hself : pc.SoloFacts next.flags next.hw) :
    Solo next := by
  have hidle : ∀ q, q ≠ p → next.pc q = .idle := by
    intro q hq
    rw [hpc, Function.update_of_ne hq]
    exact hothers q hq
  refine ⟨fun p' q hbusy hq => ?_, fun q => ?_⟩
  · by_cases hp : p' = p
    · subst hp
      exact hidle q hq
    · exact absurd (hidle p' hp) hbusy
  · by_cases hq : q = p
    · subst hq
      rw [hpc, Function.update_self]
      exact hself
    · rw [hidle q hq]
      trivial

omit [DecidableEq P] in
theorem solo_complete (h : Solo s) {number : Nat} (value : U32)
    (hmem : number ∈ s.hw.converting) :
    Solo { s with hw := s.hw.complete number value } := by
  refine ⟨h.others, fun p => ?_⟩
  have hfacts := h.locals p
  simp only
  cases hpc : s.pc p <;> rw [hpc] at hfacts
  case idle => trivial
  case wait args own =>
    rcases hfacts with ⟨-, hconverting, -⟩ | ⟨hconverting, -⟩
    · right
      rw [hconverting] at hmem
      rw [List.mem_singleton.mp hmem]
      simp [Hardware.complete, hconverting]
    · rw [hconverting] at hmem
      contradiction
  case start args =>
    rw [hfacts.2.1] at hmem
    contradiction
  all_goals
    rw [show s.hw.converting = [] from hfacts] at hmem
    contradiction

omit [DecidableEq P] in
theorem solo_interrupt (h : Solo s) (hpending : 0 < s.hw.pending) : Solo s.adcInterrupt := by
  refine ⟨h.others, fun p => ?_⟩
  have hfacts := h.locals p
  simp only [State.adcInterrupt]
  cases hpc : s.pc p <;> rw [hpc] at hfacts
  case wait args own =>
    rcases hfacts with ⟨-, -, hzero⟩ | hdone
    · omega
    · exact .inr hdone
  case start args =>
    have hzero := hfacts.2.2
    omega
  all_goals exact hfacts

theorem solo_step (h : Solo s) {label : Label P} (hguard : OneAtATime s label)
    (hstep : step s label = some next) : Solo next := by
  have hlocal {p : P} {pc : Pc} (hpc : s.pc p = pc) : pc.SoloFacts s.flags s.hw :=
    hpc ▸ h.locals p
  have hothers {p : P} {pc : Pc} (hpc : s.pc p = pc) (hbusy : pc ≠ .idle) (q : P) :
      q ≠ p → s.pc q = .idle :=
    h.others p q (hpc ▸ hbusy)
  cases step_cases hstep with
  | refused => exact .update rfl (fun q _ => hguard.1 q) trivial
  | called => exact .update rfl (fun q _ => hguard.1 q) hguard.2
  | started hpc =>
      obtain ⟨hflags, hconverting, hpending⟩ := hlocal hpc
      refine .update rfl (hothers hpc (by simp)) (.inl ⟨hflags, ?_, ?_⟩)
      · simp only [State.startConversion, writeCon_start, Hardware.writeMux, hconverting]
        rfl
      · simp only [State.startConversion, writeCon_start, Hardware.writeMux, hpending]
  | woken hpc hset =>
      rcases hlocal hpc with ⟨hflags, -⟩ | ⟨hconverting, -⟩
      · rw [hflags] at hset
        contradiction
      · exact .update rfl (hothers hpc (by simp)) hconverting
  | signalled hpc =>
      rcases hlocal hpc with ⟨hflags, -⟩ | ⟨hconverting, -⟩
      · rw [show s.flags = 1 from hguard] at hflags
        contradiction
      · exact .update rfl (hothers hpc (by simp)) hconverting
  | sampled hpc =>
      have hconverting : s.hw.converting = [] := hlocal hpc
      exact .update rfl (hothers hpc (by simp)) hconverting
  | faulted hpc => exact .update rfl (hothers hpc (by simp)) trivial
  | copied hpc =>
      have hconverting : s.hw.converting = [] := hlocal hpc
      exact .update rfl (hothers hpc (by simp)) hconverting
  | cleared hpc => exact .update rfl (hothers hpc (by simp)) trivial
  | completed hmem => exact solo_complete h _ hmem
  | interrupted hpending => exact solo_interrupt h hpending

theorem solo_init (h : (system P).init s) : Solo s := by
  obtain ⟨-, -, hidle, -⟩ := h
  refine ⟨fun _ q _ _ => hidle q, fun p => ?_⟩
  rw [hidle p]
  trivial

theorem ownCompletion_of_solo (h : Solo s) {label : Label P} (hguard : OneAtATime s label)
    (hstep : step s label = some next) : OwnCompletion s label := by
  have hset {p : P} {args : ReadArgs} {own : Nat} (hpc : s.pc p = .wait args own)
      (hflags : s.flags = 1) : s.hw.last = some own := by
    have hfacts := h.locals p
    rw [hpc] at hfacts
    rcases hfacts with ⟨hzero, -⟩ | ⟨-, hlast⟩
    · rw [hflags] at hzero
      contradiction
    · exact hlast
  cases step_cases hstep with
  | woken hpc hflags =>
      simp only [OwnCompletion, hpc]
      exact hset hpc hflags
  | signalled hpc =>
      simp only [OwnCompletion, hpc]
      exact hset hpc hguard
  | completed hmem =>
      intro q
      have hfacts := h.locals q
      cases hpc : s.pc q <;> rw [hpc] at hfacts <;> try rfl
      rw [show s.hw.converting = [] from hfacts] at hmem
      exact absurd hmem List.not_mem_nil
  | started hpc => simp only [OwnCompletion, hpc]
  | sampled hpc => simp only [OwnCompletion, hpc]
  | faulted hpc => simp only [OwnCompletion, hpc]
  | copied hpc => simp only [OwnCompletion, hpc]
  | cleared hpc => simp only [OwnCompletion, hpc]
  | refused => trivial
  | called => trivial
  | interrupted => trivial

/-- Reads that come one at a time, each to a cleared flag, return their own samples. -/
theorem one_at_a_time_fresh (h : (system P).ReachableWith OneAtATime s) :
    ∀ sample ∈ s.samples, sample.Fresh s.hw.results := by
  have hown := h.reachableWith Solo (fun _ => solo_init)
    (fun _ _ _ hi hg hs => solo_step hi hg hs)
    (fun _ _ _ hi hg hs => ownCompletion_of_solo hi hg hs)
  exact (inv_of_reachable hown).fresh

end FarsightDriver.Adc
