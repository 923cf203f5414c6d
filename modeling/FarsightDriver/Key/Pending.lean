import FarsightDriver.Key.Basic

/-!
# Presses that nobody reports

`myread` samples `keycode` in `put_user` and clears `keyflag` afterwards.  A
press accepted in between loses its flag to the call that did not report it.
-/

namespace FarsightDriver.Key

open FarsightDriver.Foundation

variable {P : Type*} [DecidableEq P]

/-- A whole call by `p`, without a pause. -/
def readBy (p : P) : List (Label P) := [.call p true, .tick p, .tick p, .tick p]

def Reports (s : State P) (p : P) : Prop :=
  ∃ finish ticket, (system P).run s (readBy p) = some finish ∧
    finish.reports = s.reports ++ [⟨some (.ofInt 8 keyX), ticket⟩]

/-- A press that no `put_user` has followed has its flag set, and the next read reports it. -/
def NotLost (s : State P) : Prop :=
  s.unreported = true → s.keyflag = 1 ∧ ∀ p, s.pc p = .idle → Reports s p

def Pc.clearing : Pc → Bool
  | .clear _ _ => true
  | _ => false

/-- No press falls between the `put_user` of a call and its clearing of the flag. -/
def ClearsReported (s : State P) : Label P → Prop
  | .tick p => (s.pc p).clearing = true → s.unreported = false
  | _ => True

instance (s : State P) : (label : Label P) → Decidable (ClearsReported s label)
  | .tick _ => inferInstanceAs (Decidable (_ → _))
  | .irq _ | .raise | .finish _ | .call _ _ | .signal _ => .isTrue trivial

structure Inv (s : State P) : Prop where
  flag : s.unreported = true → s.keyflag = 1
  code : s.unreported = true → s.keycode = keyX
  raising : s.handler = .raise → s.keycode = keyX

variable {s next : State P}

theorem reports_of_flag {p : P} (hidle : s.pc p = .idle) (hflag : s.keyflag = 1)
    (hcode : s.keycode = keyX) : Reports s p := by
  let waiting := s.goto p (.wait true)
  let told := (waiting.leave p true).putUser p true ⟨s.left, s.accepted⟩
  have hcall : step s (.call p true) = some waiting := by simp only [step, hidle, waiting]
  have hset : waiting.keyflag ≠ 0 := by
    rw [show waiting.keyflag = 1 from hflag]
    exact one_ne_zero
  have hleave : step waiting (.tick p) = some (waiting.leave p true) := by
    simp only [step, show waiting.pc p = .wait true from Function.update_self .., if_pos hset]
  have hput : step (waiting.leave p true) (.tick p) = some told := by
    simp only [step, show (waiting.leave p true).pc p = .putUser true ⟨s.left, s.accepted⟩ from
      Function.update_self .., told]
  have htold : told.pc p = .clear (some (.ofInt 8 keyX)) ⟨s.left, s.accepted⟩ := by
    rw [← hcode]
    exact Function.update_self ..
  refine ⟨told.clear p (some (.ofInt 8 keyX)) ⟨s.left, s.accepted⟩, ⟨s.left, s.accepted⟩, ?_, rfl⟩
  simp only [system, readBy, System.run, hcall, hleave, hput, Option.bind_some]
  simp only [step, htold, Option.bind_some]

theorem Inv.notLost (h : Inv s) : NotLost s := fun hunreported =>
  ⟨h.flag hunreported, fun _ hidle =>
    reports_of_flag hidle (h.flag hunreported) (h.code hunreported)⟩

theorem inv_step (h : Inv s) {label : Label P} (hguard : ClearsReported s label)
    (hstep : step s label = some next) : Inv next := by
  cases step_cases hstep with
  | debounced =>
      rw [State.debounce]
      split
      · exact ⟨h.flag, fun _ => rfl, fun _ => rfl⟩
      · exact h
  | raised hhandler => exact ⟨fun _ => rfl, fun _ => h.raising hhandler, nofun⟩
  | finished => exact ⟨h.flag, h.code, nofun⟩
  | called => exact ⟨h.flag, h.code, h.raising⟩
  | woken => exact ⟨h.flag, h.code, h.raising⟩
  | signalled => exact ⟨h.flag, h.code, h.raising⟩
  | told => exact ⟨nofun, nofun, h.raising⟩
  | @cleared p byte ticket hpc =>
      have hreported := hguard (by rw [hpc]; rfl)
      have hnot : ¬ (s.clear p byte ticket).unreported = true :=
        Bool.not_eq_true _ ▸ hreported
      exact ⟨fun hu => absurd hu hnot, fun hu => absurd hu hnot, h.raising⟩

theorem lost_of_clear {label : Label P} (hbad : ¬ ClearsReported s label) :
    ∃ next, step s label = some next ∧ ¬ NotLost next := by
  cases label with
  | tick p =>
      obtain ⟨hclearing, hunreported⟩ := Classical.not_imp.mp hbad
      cases hpc : s.pc p <;> rw [hpc] at hclearing <;> try contradiction
      rename_i byte ticket
      refine ⟨s.clear p byte ticket, by simp only [step, hpc], fun h => ?_⟩
      have hset : (0 : Int) = 1 := (h (Bool.not_eq_false _ ▸ hunreported)).1
      contradiction
  | _ => exact absurd trivial hbad

theorem inv_init (h : (system P).init s) : Inv s := by
  obtain ⟨-, hhandler, -, -, -, hunreported, -⟩ := h
  refine ⟨?_, ?_, ?_⟩ <;> simp [hhandler, hunreported]

/-- No press is lost in a run exactly when no call clears the flag over an unreported press. -/
theorem presses_not_lost_iff (hinit : (system P).init s) (labels : List (Label P)) :
    (system P).GuardedRun ClearsReported s labels ↔ (system P).AlongRun NotLost s labels :=
  System.guardedRun_iff_alongRun Inv NotLost (fun _ hi => hi.notLost)
    (fun _ _ _ hi hg hs => inv_step hi hg hs) (fun _ _ hbad => lost_of_clear hbad)
    (inv_init hinit) labels

/-- A second press is accepted after the `put_user` of a call and before it clears the flag. -/
def pressBeforeClear (p : P) : List (Label P) :=
  [.irq 100, .raise, .finish 100, .call p true, .tick p, .tick p, .irq 200, .raise, .finish 200,
    .tick p]

def pressAfterClear (p : P) : List (Label P) :=
  [.irq 100, .raise, .finish 100, .call p true, .tick p, .tick p, .tick p, .irq 200, .raise,
    .finish 200]

theorem press_lost :
    ∃ s, (system (Fin 1)).run start (pressBeforeClear 0) = some s ∧ s.accepted = 2 ∧
      s.unreported = true ∧ s.keyflag = 0 ∧ s.handler = .idle ∧ s.reports.length = 1 ∧
      ¬ NotLost s :=
  ⟨_, rfl, rfl, rfl, rfl, rfl, rfl, fun h => absurd (h rfl).1 (by decide)⟩

theorem press_kept : (system (Fin 1)).AlongRun NotLost start (pressAfterClear 0) :=
  (presses_not_lost_iff start_init (pressAfterClear 0)).mp (by decide)

end FarsightDriver.Key
