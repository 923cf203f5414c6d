import FarsightDriver.Adc.Basic

/-!
# Readers that nobody will wake

All readers share one flag, and each clears it at its end.  When a reader
clears the flag that another one still waits for, and no conversion is under
way, the other one waits for good.
-/

namespace FarsightDriver.Adc

open FarsightDriver.Foundation

variable {P : Type*} [DecidableEq P]

def Pc.waiting : Pc → Bool
  | .wait _ _ => true
  | _ => false

def Pc.clearing : Pc → Bool
  | .clear _ _ _ _ => true
  | _ => false

/-- A reader waits, and nothing is left that could set the flag. -/
def Stranded (s : State P) : Prop :=
  (∃ p, (s.pc p).waiting = true) ∧ s.flags = 0 ∧ s.hw.converting = [] ∧ s.hw.pending = 0

/-- A completion is still to be announced. -/
def Hardware.Busy (hw : Hardware) : Prop := hw.converting ≠ [] ∨ hw.pending ≠ 0

instance (hw : Hardware) : Decidable hw.Busy := inferInstanceAs (Decidable (_ ∨ _))

/-- Nobody clears the flag while another reader waits and no completion is to come. -/
def ClearsHarmless (s : State P) : Label P → Prop
  | .tick p =>
      (s.pc p).clearing = true → s.hw.Busy ∨ ∀ q, (s.pc q).waiting = false
  | _ => True

instance [Fintype P] (s : State P) : (label : Label P) → Decidable (ClearsHarmless s label)
  | .tick _ => inferInstanceAs (Decidable (_ → _))
  | .call _ _ | .signal _ | .complete _ _ | .interrupt => .isTrue trivial

def Served (s : State P) : Prop :=
  s.flags = 1 ∨ s.hw.Busy ∨ ∀ p, (s.pc p).waiting = false

omit [DecidableEq P] in
theorem not_stranded_of_served {s : State P} (h : Served s) : ¬ Stranded s := by
  rintro ⟨⟨p, hp⟩, hflags, hconverting, hpending⟩
  rcases h with hset | (hbusy | hbusy) | hnone
  · rw [hset] at hflags
    contradiction
  · exact hbusy hconverting
  · exact hbusy hpending
  · rw [hnone p] at hp
    contradiction

theorem waiting_update {s : State P} {p : P} {pc : Pc} (h : ∀ q, (s.pc q).waiting = false)
    (hpc : pc.waiting = false) : ∀ q, ((s.goto p pc).pc q).waiting = false :=
  (Function.forall_update_iff s.pc fun _ pc => pc.waiting = false).mpr ⟨hpc, fun q _ => h q⟩

theorem Served.goto {s : State P} (h : Served s) {p : P} {pc : Pc}
    (hpc : pc.waiting = false) : Served (s.goto p pc) :=
  h.imp_right fun h => h.imp_right fun hnone => waiting_update hnone hpc

theorem Served.returns {s : State P} (h : Served s) (p : P) (value : Int) :
    Served (s.returns p value) := by
  have hgoto : Served (s.goto p .idle) := h.goto rfl
  exact hgoto

variable {s next : State P}

theorem served_step (h : Served s) {label : Label P} (hguard : ClearsHarmless s label)
    (hstep : step s label = some next) : Served next := by
  cases step_cases hstep with
  | refused => exact h.returns _ _
  | called => exact h.goto rfl
  | started =>
      refine .inr (.inl (.inl ?_))
      simp [State.startConversion, writeCon_start]
  | woken => exact h.goto rfl
  | signalled => exact h.goto rfl
  | sampled => exact h.goto rfl
  | faulted => exact h.returns _ _
  | copied => exact h.goto rfl
  | cleared hpc =>
      refine .inr ((hguard (by rw [hpc]; rfl)).imp_right fun hnone => ?_)
      exact waiting_update hnone rfl
  | completed => exact .inr (.inl (.inr (Nat.succ_ne_zero _)))
  | interrupted => exact .inl rfl

theorem stranded_of_clear {label : Label P} (hbad : ¬ ClearsHarmless s label) :
    ∃ next, step s label = some next ∧ Stranded next := by
  cases label with
  | tick p =>
      simp only [ClearsHarmless, Hardware.Busy, Classical.not_imp, not_or, not_not, not_forall,
        Bool.not_eq_false] at hbad
      obtain ⟨hclear, ⟨hconverting, hpending⟩, q, hq⟩ := hbad
      cases hpc : s.pc p <;> rw [hpc] at hclear <;> try contradiction
      rename_i args own source data
      have hne : q ≠ p := by
        rintro rfl
        rw [hpc] at hq
        contradiction
      refine ⟨s.clearFlags p args ⟨own, source, data⟩, by simp only [step, hpc],
        ⟨q, ?_⟩, rfl, hconverting, hpending⟩
      simpa [State.clearFlags, State.returns, State.goto, Function.update_of_ne hne] using hq
  | _ => exact absurd trivial hbad

theorem served_init (h : (system P).init s) : Served s := by
  obtain ⟨-, -, hidle, -⟩ := h
  refine .inr (.inr fun p => ?_)
  rw [hidle p]
  rfl

/--
No state of a run has a stranded reader exactly when no step of the run clears
the flag under a waiting reader with no completion to come.
-/
theorem readers_not_stranded_iff (hinit : (system P).init s) (labels : List (Label P)) :
    (system P).GuardedRun ClearsHarmless s labels ↔
      (system P).AlongRun (fun t => ¬ Stranded t) s labels :=
  System.guardedRun_iff_alongRun Served _ (fun _ => not_stranded_of_served)
    (fun _ _ _ hi hg hs => served_step hi hg hs)
    (fun _ _ hbad =>
      have ⟨next, hs, hstranded⟩ := stranded_of_clear hbad
      ⟨next, hs, not_not.mpr hstranded⟩)
    (served_init hinit) labels

/-- Two starts and two completions, both announced before `p` reads and clears. -/
def clearUnderWaiter (p q : P) : List (Label P) :=
  [.call p ⟨4, 4⟩, .call q ⟨4, 4⟩, .tick p, .tick q, .complete 0 5, .interrupt, .complete 1 6,
    .interrupt, .tick p, .tick p, .tick p, .tick p]

/-- As above, but both leave their waits before `p` clears. -/
def clearAfterWaits (p q : P) : List (Label P) :=
  [.call p ⟨4, 4⟩, .call q ⟨4, 4⟩, .tick p, .tick q, .complete 0 5, .interrupt, .complete 1 6,
    .interrupt, .tick p, .tick q, .tick p, .tick p, .tick p]

theorem clear_strands_waiter :
    ∃ s, (system (Fin 2)).run start (clearUnderWaiter 0 1) = some s ∧ Stranded s :=
  ⟨_, rfl, ⟨1, rfl⟩, rfl, rfl, rfl⟩

theorem clear_after_waits :
    (system (Fin 2)).AlongRun (fun t => ¬ Stranded t) start (clearAfterWaits 0 1) :=
  (readers_not_stranded_iff start_init (clearAfterWaits 0 1)).mp (by decide)

end FarsightDriver.Adc
