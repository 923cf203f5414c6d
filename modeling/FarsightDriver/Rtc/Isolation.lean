import FarsightDriver.Foundation.System
import FarsightDriver.Rtc.RoundTrip

/-!
# Concurrent settings and displays

An `RTC_SET` copies its value to `tData` and then runs `RTC_set`; an
`RTC_DISPLAY` runs `tRead` and then copies `tData` out.  Between its two halves
a call relies on a structure that all calls share and no lock protects.

`clock` is the RTC's own progress.  The settings, the showings and the register
contents that a call has seen only record what happened; no step reads them.
-/

namespace FarsightDriver.Rtc

open FarsightDriver.Foundation

inductive Pc where
  | idle
  | setCopy (value : RTCTimeData)
  | setRegs (value : RTCTimeData)
  | displayRead
  | displayCopy
  deriving DecidableEq

/-- A finished `RTC_set`, with the registers around it. -/
structure Setting where
  value : RTCTimeData
  before : Regs
  after : Regs

/-- A finished `RTC_DISPLAY`, with the register contents there were during the call. -/
structure Showing where
  data : RTCTimeData
  seen : List Regs

structure State (P : Type*) where
  driver : Driver
  pc : P → Pc
  seen : P → List Regs
  settings : List Setting
  showings : List Showing

inductive Label (P : Type*) where
  | set (p : P) (value : RTCTimeData)
  | display (p : P)
  | tick (p : P)
  | clock (regs : Regs)

variable {P : Type*} [DecidableEq P]

def State.goto (s : State P) (p : P) (pc : Pc) : State P :=
  { s with pc := Function.update s.pc p pc }

/-- The registers have changed, in sight of every call. -/
def State.load (s : State P) (regs : Regs) : State P :=
  { s with
    driver := { s.driver with regs := regs }
    seen := fun p => s.seen p ++ [regs] }

def State.store (s : State P) (tData : RTCTimeData) : State P :=
  { s with driver := { s.driver with tData := tData } }

def State.setRegs (s : State P) (p : P) (value : RTCTimeData) : State P :=
  let regs := rtcSet s.driver.tData s.driver.regs
  { (s.load regs).goto p .idle with
    settings := s.settings ++ [⟨value, s.driver.regs, regs⟩] }

def State.show (s : State P) (p : P) : State P :=
  { s.goto p .idle with showings := s.showings ++ [⟨s.driver.tData, s.seen p⟩] }

def step (s : State P) : Label P → Option (State P)
  | .set p value =>
      match s.pc p with
      | .idle => some (s.goto p (.setCopy value))
      | _ => none
  | .display p =>
      match s.pc p with
      | .idle =>
          some { s.goto p .displayRead with
            seen := Function.update s.seen p [s.driver.regs] }
      | _ => none
  | .tick p =>
      match s.pc p with
      | .idle => none
      | .setCopy value => some ((s.store value).goto p (.setRegs value))
      | .setRegs value => some (s.setRegs p value)
      | .displayRead => some ((s.store (tRead s.driver.regs)).goto p .displayCopy)
      | .displayCopy => some (s.show p)
  | .clock regs => some (s.load regs)

def system (P : Type*) [DecidableEq P] : System (State P) (Label P) where
  init s := s.settings = [] ∧ s.showings = [] ∧ ∀ p, s.pc p = .idle
  step := step

/--
Every `RTC_SET` has set its own value, and every `RTC_DISPLAY` has shown what
the registers held at some point of the call.
-/
structure Isolated (s : State P) : Prop where
  settings : ∀ setting ∈ s.settings, setting.after = rtcSet setting.value setting.before
  showings : ∀ showing ∈ s.showings, ∃ regs ∈ showing.seen, showing.data = tRead regs

/-! ## When `tData` may be overwritten -/

def Pc.setting : Pc → Bool
  | .setRegs _ => true
  | _ => false

/-- Between its two halves, a call relies on `tData`. -/
def Pc.between : Pc → Bool
  | .setRegs _ | .displayCopy => true
  | _ => false

/--
A call changes `tData` only while no other call relies on it.  A display does
not mind another `tRead`.
-/
def Undisturbing (s : State P) : Label P → Prop
  | .tick p =>
      match s.pc p with
      | .setCopy value => value = s.driver.tData ∨ ∀ q, (s.pc q).between = false
      | .displayRead => tRead s.driver.regs = s.driver.tData ∨ ∀ q, (s.pc q).setting = false
      | _ => True
  | _ => True

instance [Fintype P] (s : State P) : (label : Label P) → Decidable (Undisturbing s label)
  | .set _ _ | .display _ | .clock _ => .isTrue trivial
  | .tick p =>
      match h : s.pc p with
      | .setCopy value =>
          decidable_of_iff (value = s.driver.tData ∨ ∀ q, (s.pc q).between = false)
            (by simp only [Undisturbing, h])
      | .displayRead =>
          decidable_of_iff
            (tRead s.driver.regs = s.driver.tData ∨ ∀ q, (s.pc q).setting = false)
            (by simp only [Undisturbing, h])
      | .idle | .setRegs _ | .displayCopy => .isTrue (by simp only [Undisturbing, h])

/-! ## What a call in progress knows -/

def Pc.Facts (driver : Driver) (seen : List Regs) : Pc → Prop
  | .setRegs value => driver.tData = value
  | .displayRead => driver.regs ∈ seen
  | .displayCopy => driver.regs ∈ seen ∧ ∃ regs ∈ seen, driver.tData = tRead regs
  | _ => True

structure Inv (s : State P) : Prop where
  isolated : Isolated s
  locals : ∀ p, (s.pc p).Facts s.driver (s.seen p)

theorem Pc.Facts.load {driver : Driver} {seen : List Regs} {pc : Pc}
    (h : pc.Facts driver seen) (regs : Regs) :
    pc.Facts { driver with regs := regs } (seen ++ [regs]) := by
  have hmem : regs ∈ seen ++ [regs] := List.mem_append_right _ (List.mem_singleton_self _)
  cases pc with
  | setRegs value => exact h
  | displayRead => exact hmem
  | displayCopy =>
      obtain ⟨-, old, hold, hread⟩ := h
      exact ⟨hmem, old, List.mem_append_left _ hold, hread⟩
  | _ => trivial

theorem Pc.Facts.store {driver : Driver} {seen : List Regs} {pc : Pc}
    (h : pc.Facts driver seen) {tData : RTCTimeData}
    (hsafe : tData = driver.tData ∨ pc.between = false) :
    pc.Facts { driver with tData := tData } seen := by
  rcases hsafe with rfl | hout
  · exact h
  · cases pc with
    | setRegs value => contradiction
    | displayCopy => contradiction
    | displayRead => exact h
    | _ => trivial

theorem Pc.Facts.read {driver : Driver} {seen : List Regs} {pc : Pc}
    (h : pc.Facts driver seen)
    (hsafe : tRead driver.regs = driver.tData ∨ pc.setting = false) :
    pc.Facts { driver with tData := tRead driver.regs } seen := by
  rcases hsafe with hsame | hout
  · rw [hsame]
    exact h
  · cases pc with
    | setRegs value => contradiction
    | displayCopy => exact ⟨h.1, driver.regs, h.1, rfl⟩
    | displayRead => exact h
    | _ => trivial

theorem locals_update {s next : State P} {p : P} {pc : Pc}
    (hpc : next.pc = Function.update s.pc p pc)
    (hself : pc.Facts next.driver (next.seen p))
    (hother : ∀ q, q ≠ p → (s.pc q).Facts next.driver (next.seen q)) :
    ∀ q, (next.pc q).Facts next.driver (next.seen q) := by
  rw [hpc]
  exact (Function.forall_update_iff s.pc fun q pc => pc.Facts next.driver (next.seen q)).mpr
    ⟨hself, hother⟩

variable {s next : State P} {p : P}

theorem inv_setRegs (h : Inv s) {value : RTCTimeData} (hpc : s.pc p = .setRegs value) :
    Inv (s.setRegs p value) := by
  have hvalue : s.driver.tData = value := by
    have hfacts := h.locals p
    rw [hpc] at hfacts
    exact hfacts
  refine ⟨⟨?_, h.isolated.showings⟩, ?_⟩
  · intro setting hmem
    rcases List.mem_append.mp hmem with hold | hnew
    · exact h.isolated.settings setting hold
    · rw [List.mem_singleton.mp hnew, ← hvalue]
  · exact locals_update rfl trivial fun q _ => (h.locals q).load _

theorem inv_show (h : Inv s) (hpc : s.pc p = .displayCopy) : Inv (s.show p) := by
  have hfacts := h.locals p
  rw [hpc] at hfacts
  refine ⟨⟨h.isolated.settings, ?_⟩, ?_⟩
  · intro showing hmem
    rcases List.mem_append.mp hmem with hold | hnew
    · exact h.isolated.showings showing hold
    · rw [List.mem_singleton.mp hnew]
      exact hfacts.2
  · exact locals_update rfl trivial fun q _ => h.locals q

theorem inv_tick (h : Inv s) (hguard : Undisturbing s (.tick p))
    (hstep : step s (.tick p) = some next) : Inv next := by
  cases hpc : s.pc p with
  | idle => simp only [step, hpc, reduceCtorEq] at hstep
  | setCopy value =>
      simp only [step, hpc, Option.some.injEq] at hstep
      simp only [Undisturbing, hpc] at hguard
      subst hstep
      refine ⟨⟨h.isolated.settings, h.isolated.showings⟩, ?_⟩
      exact locals_update rfl rfl fun q _ =>
        (h.locals q).store (hguard.imp_right fun hall => hall q)
  | setRegs value =>
      simp only [step, hpc, Option.some.injEq] at hstep
      exact hstep ▸ inv_setRegs h hpc
  | displayRead =>
      simp only [step, hpc, Option.some.injEq] at hstep
      simp only [Undisturbing, hpc] at hguard
      have hseen : s.driver.regs ∈ s.seen p := by
        have hfacts := h.locals p
        rw [hpc] at hfacts
        exact hfacts
      subst hstep
      refine ⟨⟨h.isolated.settings, h.isolated.showings⟩, ?_⟩
      exact locals_update rfl ⟨hseen, _, hseen, rfl⟩ fun q _ =>
        (h.locals q).read (hguard.imp_right fun hall => hall q)
  | displayCopy =>
      simp only [step, hpc, Option.some.injEq] at hstep
      exact hstep ▸ inv_show h hpc

theorem inv_step (h : Inv s) {label : Label P} (hguard : Undisturbing s label)
    (hstep : step s label = some next) : Inv next := by
  cases label with
  | set p value =>
      cases hpc : s.pc p <;>
        simp only [step, hpc, reduceCtorEq, Option.some.injEq] at hstep
      subst hstep
      refine ⟨⟨h.isolated.settings, h.isolated.showings⟩, ?_⟩
      exact locals_update rfl trivial fun q _ => h.locals q
  | display p =>
      cases hpc : s.pc p <;>
        simp only [step, hpc, reduceCtorEq, Option.some.injEq] at hstep
      subst hstep
      refine ⟨⟨h.isolated.settings, h.isolated.showings⟩, ?_⟩
      refine locals_update rfl ?_ fun q hq => ?_
      · simp [Pc.Facts, State.goto]
      · simpa [State.goto, Function.update_of_ne hq] using h.locals q
  | tick p => exact inv_tick h hguard hstep
  | clock regs =>
      simp only [step, Option.some.injEq] at hstep
      subst hstep
      exact ⟨⟨h.isolated.settings, h.isolated.showings⟩, fun q => (h.locals q).load regs⟩

theorem inv_init (h : (system P).init s) : Inv s := by
  obtain ⟨hsettings, hshowings, hidle⟩ := h
  refine ⟨⟨?_, ?_⟩, fun p => ?_⟩
  · simp [hsettings]
  · simp [hshowings]
  · rw [hidle p]
    trivial

theorem ioctls_isolated (h : (system P).ReachableWith Undisturbing s) : Isolated s :=
  (h.invariant Inv (fun _ => inv_init) fun _ _ _ hi hg hs => inv_step hi hg hs).isolated

/-! ## Calls without interference -/

theorem set_uninterrupted (hp : s.pc p = .idle) {value : RTCTimeData} {arg : UserMemory}
    (harg : value.bytes <+: arg.readable) :
    ∃ next, (system P).run s [.set p value, .tick p, .tick p] = some next ∧
      next.driver = (rtcIoctl s.driver rtcSetCmd arg).1 ∧ next.pc p = .idle := by
  have hne : rtcSetCmd ≠ rtcDisplay := by decide
  refine ⟨_, by simp [system, step, State.goto, hp]; rfl, ?_, ?_⟩
  · simp only [rtcIoctl, if_neg hne, if_true, copyFromUser_eq s.driver.tData harg]
    rfl
  · simp [State.setRegs, State.goto]

theorem display_uninterrupted (hp : s.pc p = .idle) (arg : UserMemory) :
    ∃ next, (system P).run s [.display p, .tick p, .tick p] = some next ∧
      next.driver = (rtcIoctl s.driver rtcDisplay arg).1 ∧ next.pc p = .idle ∧
      next.showings = s.showings ++ [⟨tRead s.driver.regs, [s.driver.regs]⟩] := by
  refine ⟨_, by simp [system, step, State.goto, hp]; rfl, ?_, ?_, ?_⟩
  · simp only [rtcIoctl, if_true]
    rfl
  · simp [State.show, State.goto]
  · simp [State.show, State.goto, State.store]

/-! ## Schedules -/

def start : State (Fin 2) := ⟨blank, fun _ => .idle, fun _ => [], [], []⟩

theorem start_init : (system (Fin 2)).init start := ⟨rfl, rfl, fun _ => rfl⟩

def zeroTime : RTCTimeData := ⟨0, 0, 0, 0, 0, 0, 0⟩

def setThenDisplay (p q : P) : List (Label P) :=
  [.set p appTime, .tick p, .display q, .tick p, .tick q, .tick q]

/-- The copy of `q` comes between the two halves of the setting of `p`. -/
def twoSettings (p q : P) : List (Label P) :=
  [.set p appTime, .set q zeroTime, .tick p, .tick q, .tick p]

/-- The copy of `q` comes between the two halves of the display of `p`. -/
def copyIntoDisplay (p q : P) : List (Label P) :=
  [.display p, .tick p, .set q appTime, .tick q, .tick p]

theorem set_then_display_isolated :
    ∃ s, (system (Fin 2)).run start (setThenDisplay 0 1) = some s ∧ Isolated s ∧
      s.showings.map Showing.data = [appTime.swapped] := by
  refine ⟨_, rfl, ?_, by decide⟩
  exact ioctls_isolated
    (System.ReachableWith.run (.init start_init) (setThenDisplay 0 1) (by decide) rfl)

theorem shared_tData_not_isolated :
    (∃ s, (system (Fin 2)).run start (twoSettings 0 1) = some s ∧ ¬ Isolated s) ∧
    ∃ s, (system (Fin 2)).run start (copyIntoDisplay 0 1) = some s ∧ ¬ Isolated s := by
  refine ⟨⟨_, rfl, fun h => ?_⟩, ⟨_, rfl, fun h => ?_⟩⟩
  · have hset := congrFun (h.settings _ (List.mem_singleton_self _)) (.bcdTime 0)
    revert hset
    decide
  · obtain ⟨regs, hmem, hdata⟩ := h.showings _ (List.mem_singleton_self _)
    rw [List.mem_singleton.mp hmem] at hdata
    revert hdata
    decide

end FarsightDriver.Rtc
