import FarsightDriver.Foundation.Ladder

/-!
# Loading and unloading the character drivers

The `setup` functions of the drivers take a range of device numbers, allocate a
`cdev` and add it.  The drivers written later release both when the last step
fails; the `myfifo` drivers, whose `cdev_del` stands behind a `return`, release
the range only, and never the queue they have created first.
-/

namespace FarsightDriver.Chrdev

open FarsightDriver.Foundation
open FarsightDriver.Foundation.Ladder

/-- `number` is the place that `cdev_add` gives a `cdev` in the table of the device numbers. -/
inductive Resource where
  | que
  | region
  | cdev
  | number
  deriving DecidableEq

/-- What the kernel answers; an error is negative, and `cdev_add` returns 0 otherwise. -/
structure Answers where
  kmalloc : Bool
  allocChrdevRegion : Int
  cdevAlloc : Bool
  cdevAdd : Int
  cdevAdd_le : cdevAdd ≤ 0
  deriving DecidableEq

/-- `setup_mydev` of the `myfifo` drivers: what it returns, and what it has taken and given back. -/
def setupMydev (answers : Answers) : Checked (Int × List (Use Resource)) :=
  if !answers.kmalloc then .error .nullPointer
  else if answers.allocChrdevRegion < 0 then
    .ok (answers.allocChrdevRegion, [.acquire .que])
  else if !answers.cdevAlloc then .error .nullPointer
  else if answers.cdevAdd ≠ 0 then
    .ok (answers.cdevAdd, [.acquire .que, .acquire .region, .acquire .cdev, .release .region])
  else .ok (0, [.acquire .que, .acquire .region, .acquire .cdev, .acquire .number])

def removeMycdev : List (Use Resource) :=
  [.release .number, .release .cdev, .release .que, .release .region]

/-- `setup_RTC_cdev`, and word for word `setup_XXX_cdev` and `setup_led_cdev`. -/
def setupRtcCdev (answers : Answers) : Checked (Int × List (Use Resource)) :=
  if answers.allocChrdevRegion < 0 then .ok (answers.allocChrdevRegion, [])
  else if !answers.cdevAlloc then .error .nullPointer
  else if answers.cdevAdd ≠ 0 then
    .ok (answers.cdevAdd,
      [.acquire .region, .acquire .cdev, .release .cdev, .release .region])
  else .ok (0, [.acquire .region, .acquire .cdev, .acquire .number])

def removeRtcCdev : List (Use Resource) :=
  [.release .number, .release .cdev, .release .region]

def myfifo : Driver Answers Resource := ⟨setupMydev, .ok removeMycdev⟩

def rtc : Driver Answers Resource := ⟨setupRtcCdev, .ok removeRtcCdev⟩

/-! ## The two designs -/

def failure (ret : Int) : Option Int := if ret < 0 then some ret else none

/-- What a failed load of a `myfifo` driver leaves. -/
def myfifoLeft (answers : Answers) : List Resource :=
  if answers.allocChrdevRegion < 0 then [.que] else [.que, .cdev]

theorem myfifo_climbs : Climbs myfifo [.que, .region, .cdev, .number] myfifoLeft where
  setup answers ret log h := by
    have hadd := answers.cdevAdd_le
    refine ⟨[⟨.que, false, none⟩, ⟨.region, true, failure answers.allocChrdevRegion⟩,
      ⟨.cdev, false, none⟩, ⟨.number, true, failure answers.cdevAdd⟩], ?_⟩
    simp only [myfifo, setupMydev] at h
    by_cases hregion : answers.allocChrdevRegion < 0
    · cases hmalloc : answers.kmalloc <;> simp [hmalloc, hregion] at h
      simp [climb, kept, failure, myfifoLeft, hregion, ← h, ne_of_lt hregion]
    · cases hmalloc : answers.kmalloc <;> cases halloc : answers.cdevAlloc <;>
        simp [hmalloc, halloc, hregion] at h
      by_cases hzero : answers.cdevAdd = 0
      · simp [hzero] at h
        simp [climb, kept, failure, hregion, hzero, ← h]
      · have hneg : answers.cdevAdd < 0 := lt_of_le_of_ne hadd hzero
        simp [hzero] at h
        simp [climb, kept, failure, myfifoLeft, hregion, hneg, hzero, ← h]
  remove log h := by
    cases h
    exact ⟨[.number, .cdev, .que, .region], rfl, by decide⟩

theorem rtc_climbs : Climbs rtc [.region, .cdev, .number] (fun _ => []) where
  setup answers ret log h := by
    have hadd := answers.cdevAdd_le
    refine ⟨[⟨.region, true, failure answers.allocChrdevRegion⟩, ⟨.cdev, true, none⟩,
      ⟨.number, true, failure answers.cdevAdd⟩], ?_⟩
    simp only [rtc, setupRtcCdev] at h
    by_cases hregion : answers.allocChrdevRegion < 0
    · simp [hregion] at h
      simp [climb, kept, failure, hregion, ← h, ne_of_lt hregion]
    · cases halloc : answers.cdevAlloc <;> simp [halloc, hregion] at h
      by_cases hzero : answers.cdevAdd = 0
      · simp [hzero] at h
        simp [climb, kept, failure, hregion, hzero, ← h]
      · have hneg : answers.cdevAdd < 0 := lt_of_le_of_ne hadd hzero
        simp [hzero] at h
        simp [climb, kept, failure, hregion, hneg, hzero, ← h]
  remove log h := by
    cases h
    exact ⟨[.number, .cdev, .region], rfl, by decide⟩

theorem count_left (failed : List Answers) (r : Resource) :
    (failed.flatMap myfifoLeft).count r =
      match r with
      | .que => failed.length
      | .cdev => (failed.filter fun answers => decide (0 ≤ answers.allocChrdevRegion)).length
      | .region | .number => 0 := by
  induction failed with
  | nil => cases r <;> rfl
  | cons answers failed ih =>
      rw [List.flatMap_cons, List.count_append, ih, myfifoLeft]
      by_cases hregion : answers.allocChrdevRegion < 0
      · cases r <;> simp [hregion, add_comm]
      · cases r <;> simp [hregion, add_comm, not_lt.mp hregion]

/--
Over any loads and unloads, a `myfifo` driver leaves one queue for every load
that failed, and a `cdev` besides when it failed at `cdev_add`; the drivers that
go back over both steps leave nothing.
-/
theorem failed_loads_leak :
    (∀ s, (lives myfifo).Reachable s →
      Use.held s.log .que = (if s.loaded then 1 else 0) + s.failed.length ∧
      Use.held s.log .cdev = (if s.loaded then 1 else 0) +
        (s.failed.filter fun answers => 0 ≤ answers.allocChrdevRegion).length ∧
      Use.held s.log .region = (if s.loaded then 1 else 0) ∧
      Use.held s.log .number = (if s.loaded then 1 else 0) ∧
      (s.loaded = false → (Use.Balanced s.log ↔ s.failed = []))) ∧
    ∀ s, (lives rtc).Reachable s → s.loaded = false → Use.Balanced s.log := by
  constructor
  · intro s hs
    have hconserved := conserved_of_reachable myfifo_climbs hs
    have hone : ∀ r, [Resource.que, .region, .cdev, .number].count r = 1 := by
      intro r
      cases r <;> rfl
    have hheld := fun r => hconserved.held r
    simp only [hone, count_left] at hheld
    have hcast : ((if s.loaded then 1 else 0 : Nat) : Int) = if s.loaded then 1 else 0 := by
      cases s.loaded <;> rfl
    simp only [hcast] at hheld
    refine ⟨hheld .que, hheld .cdev, (hheld .region).trans (add_zero _),
      (hheld .number).trans (add_zero _), fun hunloaded => ?_⟩
    rw [hconserved.balanced_iff hunloaded, List.eq_nil_iff_forall_not_mem]
    refine forall_congr' fun answers => ?_
    rw [imp_congr_right fun _ => iff_false_intro (?_ : myfifoLeft answers ≠ [])]
    rw [myfifoLeft]
    split <;> exact List.cons_ne_nil _ _
  · intro s hs hunloaded
    have hconserved := conserved_of_reachable rtc_climbs hs
    exact (hconserved.balanced_iff hunloaded).mpr fun _ _ => rfl

def granted : Answers := ⟨true, 0, true, 0, le_refl 0⟩

def cdevRefused : Answers := ⟨true, 0, true, -16, by decide⟩

/-- The first load fails at `cdev_add`, the second succeeds. -/
theorem myfifo_reloaded :
    ∃ s, (lives myfifo).run ⟨false, [], []⟩ [.insmod cdevRefused, .insmod granted, .rmmod] =
        some s ∧
      Use.held s.log .que = 1 ∧ Use.held s.log .cdev = 1 ∧ ¬ Use.Balanced s.log := by
  have hrun : ∃ s, (lives myfifo).run ⟨false, [], []⟩
      [.insmod cdevRefused, .insmod granted, .rmmod] = some s ∧ s.loaded = false ∧
      s.failed = [cdevRefused] :=
    ⟨_, rfl, rfl, rfl⟩
  obtain ⟨s, hrun, hunloaded, hfailed⟩ := hrun
  obtain ⟨hque, hcdev, -, -, hbalanced⟩ :=
    failed_loads_leak.1 s (System.reachable_of_run rfl hrun)
  refine ⟨s, hrun, ?_, ?_, fun h => ?_⟩
  · rw [hque, hunloaded, hfailed]
    rfl
  · rw [hcdev, hunloaded, hfailed]
    rfl
  · rw [(hbalanced hunloaded).mp h] at hfailed
    cases hfailed

end FarsightDriver.Chrdev
