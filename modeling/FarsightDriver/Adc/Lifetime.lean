import FarsightDriver.Adc.Basic
import FarsightDriver.Foundation.Checked
import FarsightDriver.Foundation.Ladder

/-!
# The devices of the ADC driver

`fs4412_dt_probe` maps the registers, requests the interrupt, registers the
device number and adds the character device, and goes back over what it has
done when one of these fails.  What it found is kept in global variables, one
for all devices, and `fs4412_dt_remove` releases what they name.
-/

namespace FarsightDriver.Adc.Lifetime

open FarsightDriver.Foundation
open FarsightDriver.Foundation.Ladder

def enodev : Int := 19

/-- What one call of `ioremap` has mapped. -/
structure Mapping where
  number : Nat
  start : Nat
  size : Nat
  deriving DecidableEq

inductive Resource where
  | mapping (base : Mapping)
  | irq (num : Nat)
  | region
  | cdev
  deriving DecidableEq

structure MemResource where
  start : Nat
  stop : Nat
  deriving DecidableEq

/-- What `platform_get_resource` finds. -/
structure Platform where
  mem : Option MemResource
  irq : Option Nat
  deriving DecidableEq

/-- The global variables, the number of mappings made, the bound devices and the calls so far. -/
structure Module where
  memRes : Option MemResource
  irqRes : Option Nat
  adcBase : Option Mapping
  mapped : Nat
  bound : List Platform
  log : List (Use Resource)
  deriving DecidableEq

def Module.call (s : Module) (uses : List (Use Resource)) : Module :=
  { s with log := s.log ++ uses }

/-- Whether `ioremap` succeeds, and what the other calls return. -/
structure Answers where
  ioremap : Bool
  requestIrq : Int
  registerChrdevRegion : Int
  cdevAdd : Int
  deriving DecidableEq

/-- What the next `ioremap` of the registers makes. -/
def Module.ioremap (s : Module) (mem : MemResource) : Mapping :=
  ⟨s.mapped, mem.start, mem.stop - mem.start⟩

def fs4412DtProbe (pdev : Platform) (answers : Answers) (s : Module) : Int × Module :=
  let s := { s with memRes := pdev.mem, irqRes := pdev.irq }
  match pdev.mem, pdev.irq with
  | some mem, some irq =>
      if !answers.ioremap then (-einval, { s with adcBase := none })
      else
        let base := s.ioremap mem
        let s := { s with adcBase := some base, mapped := s.mapped + 1 }
        let s := s.call [.acquire (.mapping base)]
        if answers.requestIrq < 0 then
          (answers.requestIrq, s.call [.release (.mapping base)])
        else
          let s := s.call [.acquire (.irq irq)]
          if answers.registerChrdevRegion < 0 then
            (answers.registerChrdevRegion,
              s.call [.release (.irq irq), .release (.mapping base)])
          else
            let s := s.call [.acquire .region]
            if answers.cdevAdd < 0 then
              (answers.cdevAdd,
                s.call [.release .region, .release (.irq irq), .release (.mapping base)])
            else (0, s.call [.acquire .cdev])
  | _, _ => (-enodev, s)

/-- `iounmap` of a null pointer unmaps nothing. -/
def iounmap : Option Mapping → List (Use Resource)
  | none => []
  | some base => [.release (.mapping base)]

def fs4412DtRemove (s : Module) : Checked Module :=
  let s := s.call [.release .cdev, .release .region]
  match s.irqRes with
  | none => .error .nullPointer
  | some irq => .ok (s.call (.release (.irq irq) :: iounmap s.adcBase))

def loaded : Module := ⟨none, none, none, 0, [], []⟩

inductive Label where
  | bind (pdev : Platform) (answers : Answers)
  | unbind (pdev : Platform)
  deriving DecidableEq

def bindDevice (pdev : Platform) (answers : Answers) (s : Module) : Module :=
  let (ret, next) := fs4412DtProbe pdev answers s
  { next with bound := if ret = 0 then pdev :: s.bound else s.bound }

/-- The driver core removes bound devices only; a fault ends the run. -/
def step (s : Module) : Label → Option Module
  | .bind pdev answers => some (bindDevice pdev answers s)
  | .unbind pdev =>
      if pdev ∈ s.bound then
        (fs4412DtRemove s).toOption.map fun next => { next with bound := s.bound.erase pdev }
      else none

def system : System Module Label where
  init s := s = loaded
  step := step

/-- No device is probed while another one is bound. -/
def BindsAlone : Module → Label → Prop
  | s, .bind _ _ => s.bound = []
  | _, .unbind _ => True

instance (s : Module) (label : Label) : Decidable (BindsAlone s label) := by
  cases label <;> unfold BindsAlone <;> infer_instance

/-! ## The probe as a ladder -/

def failure (ret : Int) : Option Int := if ret < 0 then some ret else none

def rungs (base : Mapping) (irq : Nat) (answers : Answers) : List (Rung Resource Int) :=
  [⟨.mapping base, true, none⟩, ⟨.irq irq, true, failure answers.requestIrq⟩,
    ⟨.region, true, failure answers.registerChrdevRegion⟩,
    ⟨.cdev, true, failure answers.cdevAdd⟩]

theorem probe_eq_climb {pdev : Platform} {answers : Answers} (s : Module) {mem : MemResource}
    {irq : Nat} (hmem : pdev.mem = some mem) (hirq : pdev.irq = some irq)
    (hmap : answers.ioremap = true) :
    fs4412DtProbe pdev answers s =
      ((climb (rungs (s.ioremap mem) irq answers)).1.getD 0,
        { s with
          memRes := some mem
          irqRes := some irq
          adcBase := some (s.ioremap mem)
          mapped := s.mapped + 1
          log := s.log ++ (climb (rungs (s.ioremap mem) irq answers)).2 }) := by
  simp only [fs4412DtProbe, hmem, hirq, hmap, Bool.not_true, Bool.false_eq_true, if_false,
    Module.call, Module.ioremap, rungs, climb, failure]
  by_cases hrequest : answers.requestIrq < 0
  · simp [hrequest]
  · by_cases hregister : answers.registerChrdevRegion < 0
    · simp [hrequest, hregister]
    · by_cases hadd : answers.cdevAdd < 0 <;> simp [hrequest, hregister, hadd]

theorem rungs_undone (base : Mapping) (irq : Nat) (answers : Answers) :
    ∀ rung ∈ rungs base irq answers, rung.undone = true := by
  simp [rungs]

theorem rungs_failed {base : Mapping} {irq : Nat} {answers : Answers}
    (h : (climb (rungs base irq answers)).1 ≠ none) :
    (climb (rungs base irq answers)).1.getD 0 < 0 := by
  rw [climb_failed] at h ⊢
  simp only [rungs, List.findSome?_cons, List.findSome?_nil, failure] at h ⊢
  by_cases hrequest : answers.requestIrq < 0
  · simp [hrequest]
  · by_cases hregister : answers.registerChrdevRegion < 0
    · simp [hrequest, hregister]
    · by_cases hadd : answers.cdevAdd < 0
      · simp [hrequest, hregister, hadd]
      · simp [hrequest, hregister, hadd] at h

/-! ## One device at a time -/

def holdings (base : Mapping) (irq : Nat) : List Resource :=
  [.mapping base, .irq irq, .region, .cdev]

theorem kept_of_climbed {base : Mapping} {irq : Nat} {answers : Answers}
    (h : (climb (rungs base irq answers)).1 = none) :
    kept (rungs base irq answers) = holdings base irq := by
  rw [climb_failed] at h
  simp only [kept, h]
  rfl

/-- The global variables name what is held for the device that is bound. -/
structure Bound (s : Module) (pdev : Platform) (irq : Nat) (base : Mapping) : Prop where
  own : pdev.irq = some irq
  irqRes : s.irqRes = some irq
  adcBase : s.adcBase = some base
  mapped : base.number < s.mapped
  held : ∀ r, Use.held s.log r = (holdings base irq).count r

structure Inv (s : Module) : Prop where
  givesBack : GivesBack s.log
  devices : (s.bound = [] ∧ ∀ r, Use.held s.log r = 0) ∨
    ∃ pdev irq base, s.bound = [pdev] ∧ Bound s pdev irq base

theorem inv_loaded : Inv loaded := ⟨.nil, .inl ⟨rfl, fun _ => rfl⟩⟩

theorem probe_unresourced {pdev : Platform} (answers : Answers) (s : Module)
    (h : pdev.mem = none ∨ pdev.irq = none) :
    fs4412DtProbe pdev answers s =
      (-enodev, { s with memRes := pdev.mem, irqRes := pdev.irq }) := by
  obtain ⟨_ | mem, _ | irq⟩ := pdev <;> simp_all [fs4412DtProbe]

theorem probe_unmapped {pdev : Platform} {answers : Answers} (s : Module) {mem : MemResource}
    {irq : Nat} (hmem : pdev.mem = some mem) (hirq : pdev.irq = some irq)
    (hmap : answers.ioremap = false) :
    fs4412DtProbe pdev answers s =
      (-einval, { s with memRes := some mem, irqRes := some irq, adcBase := none }) := by
  simp [fs4412DtProbe, hmem, hirq, hmap]

theorem inv_bind {s : Module} (h : Inv s) (pdev : Platform) (answers : Answers)
    (halone : s.bound = []) : Inv (bindDevice pdev answers s) := by
  have hfree : ∀ r, Use.held s.log r = 0 := by
    rcases h.devices with ⟨-, hfree⟩ | ⟨_, _, _, hbound, -⟩
    · exact hfree
    · rw [halone] at hbound
      cases hbound
  by_cases hresources : pdev.mem = none ∨ pdev.irq = none
  · rw [bindDevice, probe_unresourced answers s hresources]
    exact ⟨h.givesBack, .inl ⟨halone, hfree⟩⟩
  · push Not at hresources
    obtain ⟨mem, hmem⟩ := Option.ne_none_iff_exists'.mp hresources.1
    obtain ⟨irq, hirq⟩ := Option.ne_none_iff_exists'.mp hresources.2
    cases hmap : answers.ioremap with
    | false =>
        rw [bindDevice, probe_unmapped s hmem hirq hmap]
        exact ⟨h.givesBack, .inl ⟨halone, hfree⟩⟩
    | true =>
        rw [bindDevice, probe_eq_climb s hmem hirq hmap]
        have hback := h.givesBack.climb (rungs (s.ioremap mem) irq answers)
        have hheld := held_climb (rungs (s.ioremap mem) irq answers)
        refine ⟨hback, ?_⟩
        cases hclimbed : (climb (rungs (s.ioremap mem) irq answers)).1 with
        | none =>
            refine .inr ⟨pdev, irq, s.ioremap mem, ?_, hirq, rfl, rfl, Nat.lt_succ_self _,
              fun r => ?_⟩
            · simp [halone]
            · rw [Use.held_append, hfree, hheld, kept_of_climbed hclimbed, zero_add]
        | some error =>
            have hfailed := Option.ne_none_iff_exists'.mpr ⟨error, hclimbed⟩
            have hneg := rungs_failed hfailed
            rw [hclimbed, Option.getD_some] at hneg
            refine .inl ⟨?_, fun r => ?_⟩
            · simp [halone, ne_of_lt hneg]
            · rw [Use.held_append, hfree, hheld, kept_of_undone (rungs_undone _ _ _) hfailed]
              rfl

theorem remove_bound {s : Module} {irq : Nat} {base : Mapping} (hirq : s.irqRes = some irq)
    (hbase : s.adcBase = some base) :
    fs4412DtRemove s = .ok { s with
      log := s.log ++ [.cdev, .region, .irq irq, .mapping base].map .release } := by
  simp [fs4412DtRemove, Module.call, hirq, hbase, iounmap]

theorem holdings_perm (base : Mapping) (irq : Nat) :
    [.cdev, .region, .irq irq, .mapping base].Perm (holdings base irq) :=
  List.reverse_perm (holdings base irq)

theorem inv_unbind {s next : Module} (h : Inv s) {pdev : Platform}
    (hstep : step s (.unbind pdev) = some next) : Inv next := by
  simp only [step, Option.ite_none_right_eq_some] at hstep
  obtain ⟨hmem, hstep⟩ := hstep
  rcases h.devices with ⟨hnone, -⟩ | ⟨first, irq, base, hbound, hdevice⟩
  · rw [hnone] at hmem
    cases hmem
  · rw [remove_bound hdevice.irqRes hdevice.adcBase] at hstep
    cases hstep
    have hcount := fun r => (holdings_perm base irq).count_eq r
    refine ⟨h.givesBack.releases fun r => ?_, .inl ⟨?_, fun r => ?_⟩⟩
    · rw [hdevice.held, hcount]
    · rw [hbound] at hmem ⊢
      simp [List.mem_singleton.mp hmem]
    · rw [Use.held_append, Use.held_releases, hdevice.held, hcount]
      omega

theorem inv_of_reachable {s : Module} (h : system.ReachableWith BindsAlone s) : Inv s := by
  refine h.invariant Inv (fun s (hs : s = loaded) => hs ▸ inv_loaded)
    fun s label next hinv hguard hstep => ?_
  cases label with
  | bind pdev answers =>
      simp only [system, step, Option.some.injEq] at hstep
      exact hstep ▸ inv_bind hinv pdev answers hguard
  | unbind pdev => exact inv_unbind hinv hstep

/-! ## A second device -/

/-- The kernel gives neither the device number nor an interrupt to two owners. -/
structure Honest (s : Module) (pdev : Platform) (answers : Answers) : Prop where
  region : 0 < Use.held s.log .region → answers.registerChrdevRegion < 0
  irq : ∀ irq, pdev.irq = some irq → 0 < Use.held s.log (.irq irq) → answers.requestIrq < 0

/-- The device is removed without a fault, and everything is released that was acquired. -/
def RemovesClean (s : Module) : Prop :=
  ∃ final, fs4412DtRemove s = .ok final ∧ Use.Balanced final.log

theorem not_removesClean {s : Module} (base : Mapping) (hheld : Use.held s.log (.mapping base) = 1)
    (hbase : s.adcBase ≠ some base) : ¬ RemovesClean s := by
  rintro ⟨final, hremove, hbalanced⟩
  have hnone := hbalanced.2 (.mapping base)
  simp only [fs4412DtRemove, Module.call] at hremove
  cases hirq : s.irqRes with
  | none => simp [hirq] at hremove
  | some irq =>
      simp only [hirq, Except.ok.injEq] at hremove
      rw [← hremove] at hnone
      cases hown : s.adcBase with
      | none => simp [hown, iounmap, hheld] at hnone
      | some other =>
          have hne : other ≠ base := fun heq => hbase (heq ▸ hown)
          simp [hown, iounmap, hheld, hne] at hnone

section SecondDevice

variable {s : Module} {first : Platform} {irq : Nat} {base : Mapping}

theorem Bound.held_mapping (h : Bound s first irq base) :
    Use.held s.log (.mapping base) = 1 := by
  rw [h.held]
  simp [holdings]

theorem second_unresourced (h : Bound s first irq base) (hback : GivesBack s.log)
    {second : Platform} (answers : Answers) (hnone : second.mem = none ∨ second.irq = none) :
    RemovesClean (fs4412DtProbe second answers s).2 ↔
      second.mem = none ∧ second.irq = first.irq := by
  rw [probe_unresourced answers s hnone, h.own]
  cases hirq : second.irq with
  | none => simp [RemovesClean, fs4412DtRemove, Module.call]
  | some num =>
      have hmem : second.mem = none := by simpa [hirq] using hnone
      have hremove := remove_bound (s := { s with memRes := second.mem, irqRes := some num })
        rfl h.adcBase
      simp only [hmem, true_and, Option.some.injEq]
      rw [hmem] at hremove
      constructor
      · rintro ⟨final, hfinal, hbalanced⟩
        rw [hremove] at hfinal
        cases hfinal
        have hzero := hbalanced.2 (.irq irq)
        rw [Use.held_append, Use.held_releases, h.held] at hzero
        by_contra hne
        simp [holdings, hne] at hzero
      · rintro rfl
        refine ⟨_, hremove, ?_, fun r => ?_⟩
        · refine hback.releases fun r => ?_
          rw [h.held, (holdings_perm base num).count_eq r]
        · rw [Use.held_append, Use.held_releases, h.held, (holdings_perm base num).count_eq r]
          omega

theorem second_fails (h : Bound s first irq base) {second : Platform} {answers : Answers}
    (hhonest : Honest s second answers) (own : Mapping) (num : Nat) :
    (climb (rungs own num answers)).1 ≠ none := by
  have hregion : answers.registerChrdevRegion < 0 := by
    refine hhonest.region ?_
    rw [h.held]
    simp [holdings]
  rw [climb_failed]
  simp only [rungs, List.findSome?_cons, failure, hregion, if_true]
  by_cases hrequest : answers.requestIrq < 0 <;> simp [hrequest]

theorem second_device (h : Bound s first irq base) (hback : GivesBack s.log) (second : Platform)
    {answers : Answers} (hhonest : Honest s second answers) :
    (fs4412DtProbe second answers s).1 < 0 ∧
      (RemovesClean (fs4412DtProbe second answers s).2 ↔
        second.mem = none ∧ second.irq = first.irq) := by
  by_cases hnone : second.mem = none ∨ second.irq = none
  · refine ⟨?_, second_unresourced h hback answers hnone⟩
    rw [probe_unresourced answers s hnone]
    exact neg_lt_zero.mpr (by decide)
  · push Not at hnone
    obtain ⟨mem, hmem⟩ := Option.ne_none_iff_exists'.mp hnone.1
    obtain ⟨num, hirq⟩ := Option.ne_none_iff_exists'.mp hnone.2
    -- the variables of the first device are overwritten, and its mapping is lost
    have hlost : ¬ RemovesClean (fs4412DtProbe second answers s).2 →
        (RemovesClean (fs4412DtProbe second answers s).2 ↔
          second.mem = none ∧ second.irq = first.irq) :=
      fun hunclean => iff_of_false hunclean fun hclean => hnone.1 hclean.1
    cases hmap : answers.ioremap with
    | false =>
        have hprobe := probe_unmapped s hmem hirq hmap
        refine ⟨by rw [hprobe]; exact neg_lt_zero.mpr (by decide), hlost ?_⟩
        rw [hprobe]
        exact not_removesClean base h.held_mapping (by simp)
    | true =>
        have hprobe := probe_eq_climb s hmem hirq hmap
        have hfailed := second_fails h hhonest (s.ioremap mem) num
        refine ⟨by rw [hprobe]; exact rungs_failed hfailed, hlost ?_⟩
        rw [hprobe]
        refine not_removesClean base ?_ ?_
        · rw [Use.held_append, h.held_mapping, held_climb,
            kept_of_undone (rungs_undone _ _ _) hfailed]
          rfl
        · intro heq
          have hnumber := congrArg Mapping.number (Option.some.inj heq)
          exact absurd hnumber (ne_of_gt h.mapped)

end SecondDevice

/--
As long as devices are probed one at a time, a probe that fails leaves nothing
behind and the bound device holds what its removal releases.  A probe while a
device is bound always fails, and that device can then be removed cleanly only
if the other one has no registers and the same interrupt.
-/
theorem adc_devices_balanced {s : Module} (h : system.ReachableWith BindsAlone s) :
    (GivesBack s.log ∧ (s.bound = [] → ∀ r, Use.held s.log r = 0)) ∧
    (∀ first, first ∈ s.bound →
      RemovesClean s ∧
      ∀ second answers, Honest s second answers →
        (fs4412DtProbe second answers s).1 < 0 ∧
          (RemovesClean (fs4412DtProbe second answers s).2 ↔
            second.mem = none ∧ second.irq = first.irq)) := by
  have hinv := inv_of_reachable h
  rcases hinv.devices with ⟨hnone, hfree⟩ | ⟨pdev, irq, base, hbound, hdevice⟩
  · refine ⟨⟨hinv.givesBack, fun _ => hfree⟩, fun first hfirst => ?_⟩
    rw [hnone] at hfirst
    cases hfirst
  · refine ⟨⟨hinv.givesBack, fun hnone => ?_⟩, fun first hfirst => ?_⟩
    · rw [hnone] at hbound
      cases hbound
    · rw [hbound, List.mem_singleton] at hfirst
      subst hfirst
      refine ⟨⟨_, remove_bound hdevice.irqRes hdevice.adcBase, ?_, fun r => ?_⟩,
        fun second answers => second_device hdevice hinv.givesBack second⟩
      · refine hinv.givesBack.releases fun r => ?_
        rw [hdevice.held, (holdings_perm base irq).count_eq r]
      · rw [Use.held_append, Use.held_releases, hdevice.held, (holdings_perm base irq).count_eq r]
        omega

def granted : Answers := ⟨true, 0, 0, 0⟩

def refused : Answers := ⟨true, 0, 0, -16⟩

def adcDevice : Platform := ⟨some ⟨0x126C0000, 0x126C0020⟩, some 42⟩

/-- The first probe fails at its last rung, the second one succeeds; then another device is
probed. -/
theorem second_adc_unmaps :
    ∃ s, system.run loaded [.bind adcDevice refused, .bind adcDevice granted] = some s ∧
      RemovesClean s ∧
      ¬ RemovesClean (fs4412DtProbe ⟨some ⟨0x126D0000, 0x126D0020⟩, some 43⟩ ⟨true, 0, -16, 0⟩ s).2
      := by
  have hrun : ∃ s, system.run loaded [.bind adcDevice refused, .bind adcDevice granted] = some s ∧
      adcDevice ∈ s.bound ∧
      Honest s ⟨some ⟨0x126D0000, 0x126D0020⟩, some 43⟩ ⟨true, 0, -16, 0⟩ := by
    refine ⟨_, rfl, by decide, fun _ => by decide, fun irq hirq hheld => ?_⟩
    cases hirq
    exact absurd hheld (by decide)
  obtain ⟨s, hrun, hmem, hhonest⟩ := hrun
  obtain ⟨-, hdevices⟩ := adc_devices_balanced
    (System.ReachableWith.run (.init rfl) _ (by decide) hrun)
  obtain ⟨hclean, hsecond⟩ := hdevices adcDevice hmem
  refine ⟨s, hrun, hclean, fun hremoved => ?_⟩
  exact absurd ((hsecond _ _ hhonest).2.mp hremoved).1 (by decide)

end FarsightDriver.Adc.Lifetime
