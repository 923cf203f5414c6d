import FarsightDriver.Foundation.Checked
import FarsightDriver.Foundation.Resources
import FarsightDriver.Foundation.System

/-!
# Ladders of acquisitions

An initialisation acquires one resource after the other.  When an acquisition
fails it jumps to a label from which on the earlier ones are released, the last
one first.  A rung that the labels have forgotten stays acquired.  Over the life
of a module, what is held is what the loaded module has acquired and what its
failed initialisations have left.
-/

namespace FarsightDriver.Foundation

/-- One acquisition: `answer` is the error with which it fails, if it does. -/
structure Rung (R E : Type*) where
  resource : R
  undone : Bool
  answer : Option E
  deriving DecidableEq

namespace Ladder

variable {R E : Type*}

def climb : List (Rung R E) → Option E × List (Use R)
  | [] => (none, [])
  | rung :: rest =>
      match rung.answer with
      | some error => (some error, [])
      | none =>
          let (failed, log) := climb rest
          (failed, .acquire rung.resource :: log ++
            if failed.isSome && rung.undone then [.release rung.resource] else [])

/-- What stays acquired when the ladder has been climbed, or has failed. -/
def kept (rungs : List (Rung R E)) : List R :=
  match rungs.findSome? Rung.answer with
  | none => rungs.map Rung.resource
  | some _ =>
      ((rungs.takeWhile fun rung => rung.answer.isNone).filter fun rung => !rung.undone).map
        Rung.resource

theorem climb_failed (rungs : List (Rung R E)) :
    (climb rungs).1 = rungs.findSome? Rung.answer := by
  induction rungs with
  | nil => rfl
  | cons rung rest ih =>
      rw [climb, List.findSome?_cons]
      cases rung.answer with
      | some error => rfl
      | none => exact ih

theorem kept_cons {rung : Rung R E} (rest : List (Rung R E)) (h : rung.answer = none) :
    kept (rung :: rest) =
      if (climb rest).1.isSome && rung.undone then kept rest
      else rung.resource :: kept rest := by
  have hfailed := climb_failed rest
  unfold kept
  rw [List.findSome?_cons, h, ← hfailed]
  cases (climb rest).1 with
  | none => rfl
  | some error => cases hundone : rung.undone <;> simp [h, hundone]

theorem kept_of_failed {rung : Rung R E} (rest : List (Rung R E)) {error : E}
    (h : rung.answer = some error) : kept (rung :: rest) = [] := by
  simp [kept, h]

/-- Nothing stays when every rung in front of the one that fails is undone. -/
theorem kept_of_undone {rungs : List (Rung R E)} (hundone : ∀ rung ∈ rungs, rung.undone = true)
    (hfailed : (climb rungs).1 ≠ none) : kept rungs = [] := by
  rw [climb_failed] at hfailed
  obtain ⟨error, herror⟩ := Option.ne_none_iff_exists'.mp hfailed
  simp only [kept, herror, List.map_eq_nil_iff, List.filter_eq_nil_iff]
  intro rung hmem
  simp [hundone rung ((List.takeWhile_sublist _).mem hmem)]

variable [DecidableEq R]

/-- Each release gives back what is held at the time. -/
def GivesBack (log : List (Use R)) : Prop :=
  AtEach (fun front use => ∀ r, use = .release r → 0 < Use.held front r) log

theorem GivesBack.acquire {log : List (Use R)} (h : GivesBack log) (r : R) :
    GivesBack (log ++ [.acquire r]) :=
  atEach_append.mpr ⟨h, fun _ hr => nomatch hr⟩

theorem GivesBack.release {log : List (Use R)} (h : GivesBack log) {r : R}
    (hheld : 0 < Use.held log r) : GivesBack (log ++ [.release r]) := by
  refine atEach_append.mpr ⟨h, fun r' hr' => ?_⟩
  cases hr'
  exact hheld

theorem GivesBack.held_nonneg {log : List (Use R)} (h : GivesBack log) (r : R) :
    0 ≤ Use.held log r := by
  induction log using List.reverseRecOn with
  | nil => exact le_refl 0
  | append_singleton log use ih =>
      obtain ⟨hfront, hlast⟩ := atEach_append.mp h
      have hheld := ih hfront
      rw [Use.held_append, Use.held_cons, Use.held_nil]
      cases use with
      | acquire r' =>
          rw [Use.effect_acquire]
          split <;> omega
      | release r' =>
          rw [Use.effect_release]
          split
          case isTrue heq =>
            have hpos := hlast r' rfl
            rw [heq] at hpos
            omega
          case isFalse => omega

theorem held_climb (rungs : List (Rung R E)) (r : R) :
    Use.held (climb rungs).2 r = (kept rungs).count r := by
  induction rungs with
  | nil => rfl
  | cons rung rest ih =>
      cases hanswer : rung.answer with
      | some error => simp [climb, hanswer, kept_of_failed rest hanswer]
      | none =>
          rw [climb, hanswer, kept_cons rest hanswer]
          simp only [List.cons_append, Use.held_cons, Use.held_append, ih]
          by_cases hundo : ((climb rest).1.isSome && rung.undone) = true
          · simp only [if_pos hundo, Use.held_cons, Use.held_nil, Use.effect_acquire,
              Use.effect_release]
            split <;> omega
          · simp only [if_neg hundo, Use.held_nil, Use.effect_acquire, List.count_cons]
            by_cases heq : rung.resource = r <;> simp [heq, add_comm]

theorem GivesBack.climb {front : List (Use R)} (h : GivesBack front) (rungs : List (Rung R E)) :
    GivesBack (front ++ (climb rungs).2) := by
  induction rungs generalizing front with
  | nil => simpa [Ladder.climb] using h
  | cons rung rest ih =>
      rw [Ladder.climb]
      cases rung.answer with
      | some error => simpa using h
      | none =>
          have hrest := ih (h.acquire rung.resource)
          rw [List.append_assoc, List.singleton_append] at hrest
          simp only
          split
          · rw [← List.append_assoc]
            refine hrest.release ?_
            have hfront := h.held_nonneg rung.resource
            have hclimbed := held_climb rest rung.resource
            rw [Use.held_append, Use.held_cons, hclimbed, Use.effect_acquire, if_pos rfl]
            omega
          · rwa [List.append_nil]

theorem GivesBack.releases {log : List (Use R)} (h : GivesBack log) {rs : List R}
    (hheld : ∀ r, (rs.count r : Int) ≤ Use.held log r) :
    GivesBack (log ++ rs.map .release) := by
  induction rs generalizing log with
  | nil => simpa using h
  | cons r rs ih =>
      rw [List.map_cons, List.append_cons]
      refine ih (h.release ?_) fun r' => ?_
      · have hr := hheld r
        rw [List.count_cons_self] at hr
        omega
      · have hr' := hheld r'
        rw [List.count_cons] at hr'
        rw [Use.held_append, Use.held_cons, Use.held_nil, Use.effect_release]
        by_cases heq : r = r'
        · simp only [heq, beq_self_eq_true, if_true] at hr' ⊢
          omega
        · simp only [heq, beq_iff_eq, if_false] at hr' ⊢
          omega

/-! ## Modules that are loaded and unloaded -/

section Lives

structure Driver (A R : Type*) where
  setup : A → Checked (Int × List (Use R))
  remove : Checked (List (Use R))

/-- `failed` has the answers to the loads that failed. -/
structure State (A R : Type*) where
  loaded : Bool
  failed : List A
  log : List (Use R)

inductive Label (A : Type*) where
  | insmod (answers : A)
  | rmmod
  deriving DecidableEq

variable {A R : Type*}

/-- A module is loaded when its initialisation returns 0; a fault ends the run. -/
def step (driver : Driver A R) (s : State A R) : Label A → Option (State A R)
  | .insmod answers =>
      if s.loaded then none
      else
        (driver.setup answers).toOption.map fun (ret, log) =>
          if ret = 0 then { s with loaded := true, log := s.log ++ log }
          else { s with failed := s.failed ++ [answers], log := s.log ++ log }
  | .rmmod =>
      if s.loaded then
        driver.remove.toOption.map fun log => { s with loaded := false, log := s.log ++ log }
      else none

def lives (driver : Driver A R) : System (State A R) (Label A) where
  init s := s = ⟨false, [], []⟩
  step := step driver

/-- The setup is a ladder to `names`, a failed one leaves `left`, and the removal takes `names`. -/
structure Climbs (driver : Driver A R) (names : List R) (left : A → List R) : Prop where
  setup : ∀ answers ret log, driver.setup answers = .ok (ret, log) →
    ∃ rungs : List (Rung R Int), log = (climb rungs).2 ∧
      kept rungs = if ret = 0 then names else left answers
  remove : ∀ log, driver.remove = .ok log → ∃ rs : List R, log = rs.map .release ∧ rs.Perm names

theorem eq_ok_of_toOption {α : Type*} {x : Checked α} {a : α} (h : x.toOption = some a) :
    x = .ok a := by
  cases x with
  | error fault => cases h
  | ok b => exact congrArg Except.ok (Option.some.inj h)

variable [DecidableEq R] {driver : Driver A R} {names : List R} {left : A → List R}

/-- What is held: the resources of the loaded module, and what the failed loads have left. -/
structure Conserved (names : List R) (left : A → List R) (s : State A R) : Prop where
  givesBack : GivesBack s.log
  held : ∀ r, Use.held s.log r =
    (if s.loaded then names.count r else 0) + (s.failed.flatMap left).count r

theorem conserved_of_reachable (hclimbs : Climbs driver names left) {s : State A R}
    (h : (lives driver).Reachable s) : Conserved names left s := by
  refine h.invariant (Conserved names left) ?_ fun s label next hinv hstep => ?_
  · rintro s rfl
    exact ⟨.nil, fun r => rfl⟩
  · cases label with
    | insmod answers =>
        simp only [lives, step, Option.ite_none_left_eq_some] at hstep
        obtain ⟨hloaded, hstep⟩ := hstep
        obtain ⟨⟨ret, log⟩, hsetup, rfl⟩ := Option.map_eq_some_iff.mp hstep
        obtain ⟨rungs, rfl, hkept⟩ := hclimbs.setup answers ret log (eq_ok_of_toOption hsetup)
        have hback := hinv.givesBack.climb rungs
        have hheld := fun r => hinv.held r
        by_cases hret : ret = 0
        · simp only [if_pos hret] at hkept ⊢
          refine ⟨hback, fun r => ?_⟩
          rw [Use.held_append, held_climb, hkept, hheld, if_neg hloaded]
          simp [add_comm]
        · simp only [if_neg hret] at hkept ⊢
          refine ⟨hback, fun r => ?_⟩
          rw [Use.held_append, held_climb, hkept, hheld, List.flatMap_append,
            List.count_append, List.flatMap_singleton]
          push_cast
          omega
    | rmmod =>
        simp only [lives, step, Option.ite_none_right_eq_some] at hstep
        obtain ⟨hloaded, hstep⟩ := hstep
        obtain ⟨log, hremove, rfl⟩ := Option.map_eq_some_iff.mp hstep
        obtain ⟨rs, rfl, hperm⟩ := hclimbs.remove log (eq_ok_of_toOption hremove)
        have hheld := fun r => hinv.held r
        simp only [hloaded, if_true] at hheld
        refine ⟨hinv.givesBack.releases fun r => ?_, fun r => ?_⟩
        · rw [hheld, hperm.count_eq]
          omega
        · rw [Use.held_append, Use.held_releases, hheld, hperm.count_eq]
          simp

theorem Conserved.balanced_iff {s : State A R} (h : Conserved names left s)
    (hunloaded : s.loaded = false) :
    Use.Balanced s.log ↔ ∀ answers ∈ s.failed, left answers = [] := by
  have hheld := h.held
  simp only [hunloaded, Bool.false_eq_true, if_false] at hheld
  rw [← List.flatMap_eq_nil_iff, List.eq_nil_iff_forall_not_mem]
  constructor
  · intro hbalanced r
    have hr := hbalanced.2 r
    rw [hheld] at hr
    rw [← List.count_eq_zero]
    omega
  · intro hnone
    refine ⟨h.givesBack, fun r => ?_⟩
    rw [hheld, List.count_eq_zero.mpr (hnone r)]
    rfl

end Lives

end Ladder

end FarsightDriver.Foundation
