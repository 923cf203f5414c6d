import FarsightDriver.Foundation.Checked
import FarsightDriver.Foundation.Resources
import FarsightDriver.Foundation.System

/-!
# The life of the key driver's module

The module is loaded, a device is bound and unbound any number of times, and the
module is unloaded.  `myremove` frees the interrupt and so does `mymodule_exit`;
the device number is allocated for one minor and unregistered for four.
-/

namespace FarsightDriver.Key.Lifetime

open FarsightDriver.Foundation

inductive Resource where
  | irq (num : Nat)
  | region (count : Nat)
  | cdev
  deriving DecidableEq

/-- The global variables, whether a device is bound, and the calls to the kernel so far. -/
structure Module where
  myresourceIrq : Option Nat
  irqnum : Nat
  bound : Bool
  log : List (Use Resource)
  deriving DecidableEq

def Module.call (s : Module) (uses : List (Use Resource)) : Module :=
  { s with log := s.log ++ uses }

/-- What `alloc_chrdev_region`, `cdev_add` and `request_irq` return. -/
structure Answers where
  allocChrdevRegion : Int
  cdevAdd : Int
  requestIrq : Int
  deriving DecidableEq

def setupMydev (answers : Answers) (s : Module) : Int × Module :=
  if answers.allocChrdevRegion < 0 then (answers.allocChrdevRegion, s)
  else
    let s := s.call [.acquire (.region 1)]
    if answers.cdevAdd ≠ 0 then (answers.cdevAdd, s.call [.release (.region 1)])
    else
      let s := s.call [.acquire .cdev]
      if answers.requestIrq ≠ 0 then (0, s)
      else (0, s.call [.acquire (.irq s.irqnum)])

def removeMycdev (s : Module) : Module := s.call [.release .cdev, .release (.region 4)]

/-- The interrupt of the device is `irq`; what `setup_mydev` returns is not looked at. -/
def myprobe (irq : Nat) (answers : Answers) (s : Module) : Int × Module :=
  let s := { s with myresourceIrq := some irq, irqnum := irq }
  (0, (setupMydev answers s).2)

def myremove (s : Module) : Module := removeMycdev (s.call [.release (.irq s.irqnum)])

def mymoduleInit : Module := ⟨none, 0, false, []⟩

/-- `platform_driver_unregister` unbinds a device that is still bound. -/
def platformDriverUnregister (s : Module) : Module :=
  if s.bound then { myremove s with bound := false } else s

def mymoduleExit (s : Module) : Checked Module :=
  match s.myresourceIrq with
  | none => .error .nullPointer
  | some start => .ok (platformDriverUnregister (s.call [.release (.irq start)]))

inductive Label where
  | bind (irq : Nat) (answers : Answers)
  | unbind
  deriving DecidableEq

def step (s : Module) : Label → Option Module
  | .bind irq answers =>
      if s.bound then none else some { (myprobe irq answers s).2 with bound := true }
  | .unbind => if s.bound then some { myremove s with bound := false } else none

def system : System Module Label where
  init s := s = mymoduleInit
  step := step

def Succeeds : Module → Label → Prop
  | _, .bind _ answers =>
      0 ≤ answers.allocChrdevRegion ∧ answers.cdevAdd = 0 ∧ answers.requestIrq = 0
  | _, .unbind => True

instance (s : Module) (label : Label) : Decidable (Succeeds s label) := by
  cases label <;> unfold Succeeds <;> infer_instance

/-- The module is unloaded without a fault, and everything is released that was acquired. -/
def UnloadsClean (s : Module) : Prop :=
  ∃ final, mymoduleExit s = .ok final ∧ Use.Balanced final.log

/-! ## What a step can do -/

theorem myprobe_succeeds (s : Module) {irq : Nat} {answers : Answers}
    (h : Succeeds s (.bind irq answers)) :
    (myprobe irq answers s).2 =
      { s with
        myresourceIrq := some irq
        irqnum := irq
        log := s.log ++ [.acquire (.region 1), .acquire .cdev, .acquire (.irq irq)] } := by
  obtain ⟨halloc, hadd, hirq⟩ := h
  simp [myprobe, setupMydev, Module.call, Int.not_lt.mpr halloc, hadd, hirq]

theorem myremove_eq (s : Module) :
    myremove s =
      { s with
        log := s.log ++
          [.release (.irq s.irqnum), .release .cdev, .release (.region 4)] } := by
  simp [myremove, removeMycdev, Module.call]

inductive Step (s : Module) : Label → Module → Prop
  | bound {irq : Nat} {answers : Answers} (hbound : s.bound = false) :
      Step s (.bind irq answers) { (myprobe irq answers s).2 with bound := true }
  | unbound (hbound : s.bound = true) : Step s .unbind { myremove s with bound := false }

theorem step_cases {s next : Module} {label : Label} (h : step s label = some next) :
    Step s label next := by
  cases label with
  | bind irq answers =>
      simp only [step, Option.ite_none_left_eq_some, Option.some.injEq] at h
      exact h.2 ▸ .bound (Bool.eq_false_iff.mpr h.1)
  | unbind =>
      simp only [step, Option.ite_none_right_eq_some, Option.some.injEq] at h
      exact h.2 ▸ .unbound h.1

/-! ## The balance of a life -/

/-- What is held between the calls of the driver core. -/
structure Inv (s : Module) : Prop where
  irqs : ∀ num, Use.held s.log (.irq num) = if s.bound ∧ s.irqnum = num then 1 else 0
  known : ∀ num, s.myresourceIrq = some num → s.irqnum = num
  fresh : s.myresourceIrq = none → s = mymoduleInit
  regions : s.myresourceIrq ≠ none → 0 < Use.held s.log (.region 1)

theorem inv_init : Inv mymoduleInit where
  irqs num := rfl
  known num h := by simp [mymoduleInit] at h
  fresh _ := rfl
  regions h := absurd rfl h

theorem inv_bound {s : Module} (h : Inv s) {irq : Nat} {answers : Answers}
    (hsucceeds : Succeeds s (.bind irq answers)) (hbound : s.bound = false) :
    Inv { (myprobe irq answers s).2 with bound := true } := by
  rw [myprobe_succeeds s hsucceeds]
  have hfree : ∀ num, Use.held s.log (.irq num) = 0 := fun num => by
    rw [h.irqs, hbound]
    simp
  have hregions : 0 ≤ Use.held s.log (.region 1) := by
    by_cases hnone : s.myresourceIrq = none
    · rw [h.fresh hnone]
      exact le_refl 0
    · exact le_of_lt (h.regions hnone)
  refine ⟨fun num => ?_, fun num hnum => Option.some.inj hnum, fun hnone => ?_, fun _ => ?_⟩
  · simp [hfree]
  · cases hnone
  · simp only [Use.held_append, Use.held_cons, Use.held_nil, Use.effect_acquire]
    simp only [if_true, reduceCtorEq, if_false]
    omega

theorem inv_unbound {s : Module} (h : Inv s) (hbound : s.bound = true) :
    Inv { myremove s with bound := false } := by
  rw [myremove_eq]
  have hknown : s.myresourceIrq ≠ none := fun hnone => by
    rw [h.fresh hnone] at hbound
    cases hbound
  refine ⟨fun num => ?_, h.known, fun hnone => absurd hnone hknown, fun _ => ?_⟩
  · simp only [Use.held_append, h.irqs, hbound]
    by_cases hnum : s.irqnum = num <;> simp [hnum]
  · have hregions := h.regions hknown
    simpa [Use.held_append] using hregions

theorem inv_of_reachable {s : Module} (h : system.ReachableWith Succeeds s) : Inv s := by
  refine h.invariant Inv (fun s (hs : s = mymoduleInit) => hs ▸ inv_init)
    fun s label next hinv hsucceeds hstep => ?_
  cases step_cases hstep with
  | bound hbound => exact inv_bound hinv hsucceeds hbound
  | unbound hbound => exact inv_unbound hinv hbound

theorem held_after_exit {s final : Module} (h : mymoduleExit s = .ok final) (r : Resource) :
    ∃ start, s.myresourceIrq = some start ∧
      Use.held final.log r = Use.held s.log r + Use.effect r (.release (.irq start)) +
        if s.bound then
          Use.held [.release (.irq s.irqnum), .release .cdev, .release (.region 4)] r
        else 0 := by
  unfold mymoduleExit at h
  cases hstart : s.myresourceIrq with
  | none => simp [hstart] at h
  | some start =>
      refine ⟨start, rfl, ?_⟩
      simp only [hstart, Except.ok.injEq] at h
      rw [← h, platformDriverUnregister]
      cases hbound : s.bound with
      | false => simp [Module.call, hbound]
      | true => simp [Module.call, hbound, myremove_eq, add_assoc]

/--
Unloading faults when no device was ever bound.  Otherwise the last interrupt is
freed once more than it was requested, and no device number is unregistered for
the one minor that it was allocated for.
-/
theorem module_never_unloads_clean (s : Module) (h : system.ReachableWith Succeeds s) :
    (mymoduleExit s = .error .nullPointer ↔ s = mymoduleInit) ∧
      (∀ final, mymoduleExit s = .ok final →
        Use.held final.log (.irq s.irqnum) = -1 ∧ 0 < Use.held final.log (.region 1)) ∧
      ¬ UnloadsClean s := by
  have hinv := inv_of_reachable h
  have hheld : ∀ final, mymoduleExit s = .ok final →
      Use.held final.log (.irq s.irqnum) = -1 ∧ 0 < Use.held final.log (.region 1) := by
    intro final hfinal
    obtain ⟨start, hstart, hirq⟩ := held_after_exit hfinal (.irq s.irqnum)
    obtain ⟨start', -, hregion⟩ := held_after_exit hfinal (.region 1)
    have hsome : s.myresourceIrq ≠ none := by simp [hstart]
    rw [hinv.irqs, ← hinv.known start hstart] at hirq
    constructor
    · cases hbound : s.bound <;> simp [hirq, hbound]
    · have hpos := hinv.regions hsome
      cases hbound : s.bound <;> simpa [hregion, hbound] using hpos
  refine ⟨⟨fun hfault => ?_, fun hinit => hinit ▸ rfl⟩, hheld, ?_⟩
  · refine hinv.fresh ?_
    unfold mymoduleExit at hfault
    cases hstart : s.myresourceIrq with
    | none => rfl
    | some start => simp [hstart] at hfault
  · rintro ⟨final, hfinal, hbalanced⟩
    have hregion := (hheld final hfinal).2
    exact Use.not_balanced_of_held (ne_of_gt hregion) hbalanced

def granted : Answers := ⟨0, 0, 0⟩

/-- A device with interrupt 40 is bound, and is still bound when the module is unloaded. -/
def boundAtExit : List Label := [.bind 40 granted]

theorem interrupt_freed_twice :
    ((system.run mymoduleInit boundAtExit).map fun s => (mymoduleExit s).map Module.log) =
        some (.ok [.acquire (.region 1), .acquire .cdev, .acquire (.irq 40), .release (.irq 40),
          .release (.irq 40), .release .cdev, .release (.region 4)]) ∧
      mymoduleExit mymoduleInit = .error .nullPointer ∧
      ∃ s, system.run mymoduleInit boundAtExit = some s ∧ ¬ UnloadsClean s := by
  refine ⟨by decide, rfl, _, rfl, ?_⟩
  rintro ⟨final, hfinal, hbalanced⟩
  cases hfinal
  exact absurd (hbalanced.2 (.irq 40)) (by decide)

def rebound : Module := ⟨some 41, 41, false,
  [.acquire (.region 1), .acquire .cdev, .acquire (.irq 40), .release (.irq 40), .release .cdev,
    .release (.region 4), .acquire (.region 1), .acquire .cdev, .acquire (.irq 41),
    .release (.irq 41), .release .cdev, .release (.region 4)]⟩

theorem rebound_reachable : system.ReachableWith Succeeds rebound := by
  exact System.ReachableWith.run (.init rfl)
    [.bind 40 granted, .unbind, .bind 41 granted, .unbind] (by decide) (by decide)

theorem rebound_unloads_unclean :
    (mymoduleExit rebound = .error .nullPointer ↔ rebound = mymoduleInit) ∧
      (∀ final, mymoduleExit rebound = .ok final →
        Use.held final.log (.irq rebound.irqnum) = -1 ∧ 0 < Use.held final.log (.region 1)) ∧
      ¬ UnloadsClean rebound :=
  module_never_unloads_clean rebound rebound_reachable

end FarsightDriver.Key.Lifetime
