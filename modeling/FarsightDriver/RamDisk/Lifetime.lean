import FarsightDriver.Foundation.Ladder

/-!
# Loading and unloading the RAM disk

`fsdsk_init` goes back over its steps when one fails, but has no label for the
request queue.  The calls that would create a class and a device are commented
out, and `fsdsk_exit` deletes the device that was never created.
-/

namespace FarsightDriver.RamDisk.Lifetime

open FarsightDriver.Foundation
open FarsightDriver.Foundation.Ladder

inductive Resource where
  | major
  | dev
  | data
  | queue
  | disk
  deriving DecidableEq

def ebusy : Int := 16

def efault : Int := 14

/-- What `register_blkdev` returns, and whether the allocations succeed. -/
structure Answers where
  registerBlkdev : Int
  kmalloc : Bool
  vmalloc : Bool
  blkInitQueue : Bool
  allocDisk : Bool
  deriving DecidableEq

/-- `device_create` is commented out. -/
def myDev : Option Nat := none

def fsdskInit (answers : Answers) : Checked (Int × List (Use Resource)) :=
  if answers.registerBlkdev ≤ 0 then .ok (-ebusy, [])
  else if !answers.kmalloc then .ok (-efault, [.acquire .major, .release .major])
  else if !answers.vmalloc then
    .ok (-efault, [.acquire .major, .acquire .dev, .release .dev, .release .major])
  else if !answers.blkInitQueue then .error .nullPointer
  else if !answers.allocDisk then
    .ok (-efault, [.acquire .major, .acquire .dev, .acquire .data, .acquire .queue,
      .release .data, .release .dev, .release .major])
  else
    .ok (0, [.acquire .major, .acquire .dev, .acquire .data, .acquire .queue, .acquire .disk])

/-- `device_del` follows its pointer. -/
def deviceDel : Option Nat → Checked Unit
  | none => .error .nullPointer
  | some _ => .ok ()

def fsdskExit : Checked (List (Use Resource)) := do
  let log : List (Use Resource) :=
    [.release .disk, .release .queue, .release .data, .release .dev]
  deviceDel myDev
  return log ++ [.release .major]

def fsdsk : Driver Answers Resource := ⟨fsdskInit, fsdskExit⟩

def names : List Resource := [.major, .dev, .data, .queue, .disk]

/-- The load got as far as the allocation of the disk. -/
def ReachesDisk (answers : Answers) : Prop :=
  0 < answers.registerBlkdev ∧ answers.kmalloc = true ∧ answers.vmalloc = true

instance (answers : Answers) : Decidable (ReachesDisk answers) :=
  inferInstanceAs (Decidable (_ ∧ _))

def left (answers : Answers) : List Resource := if ReachesDisk answers then [.queue] else []

def failure (success : Bool) (error : Int) : Option Int := if success then none else some error

theorem fsdsk_climbs : Climbs fsdsk names left where
  setup answers ret log h := by
    refine ⟨[⟨.major, true, failure (0 < answers.registerBlkdev) (-ebusy)⟩,
      ⟨.dev, true, failure answers.kmalloc (-efault)⟩,
      ⟨.data, true, failure answers.vmalloc (-efault)⟩, ⟨.queue, false, none⟩,
      ⟨.disk, true, failure answers.allocDisk (-efault)⟩], ?_⟩
    simp only [fsdsk, fsdskInit] at h
    by_cases hmajor : answers.registerBlkdev ≤ 0
    · simp [hmajor] at h
      simp [climb, kept, failure, left, ReachesDisk, not_lt.mpr hmajor, ← h, ebusy]
    · have hpos := not_le.mp hmajor
      cases hdev : answers.kmalloc
      · simp [hmajor, hdev] at h
        simp [climb, kept, failure, left, ReachesDisk, hdev, hpos, ← h, efault]
      · cases hdata : answers.vmalloc
        · simp [hmajor, hdev, hdata] at h
          simp [climb, kept, failure, left, ReachesDisk, hdev, hdata, hpos, ← h, efault]
        · cases hqueue : answers.blkInitQueue <;> cases hdisk : answers.allocDisk <;>
            simp [hmajor, hdev, hdata, hqueue, hdisk] at h
          · simp [climb, kept, failure, left, ReachesDisk, hdev, hdata, hpos, ← h, efault]
          · simp [climb, kept, failure, hpos, ← h, names]
  remove log h := by cases h

theorem count_left (failed : List Answers) (r : Resource) :
    (failed.flatMap left).count r =
      if r = .queue then (failed.filter fun answers => ReachesDisk answers).length else 0 := by
  induction failed with
  | nil => cases r <;> rfl
  | cons answers failed ih =>
      rw [List.flatMap_cons, List.count_append, ih, left]
      by_cases hreaches : ReachesDisk answers
      · cases r <;> simp [hreaches, add_comm]
      · cases r <;> simp [hreaches]

/--
A load that fails leaves the request queue, if it had come to it, and nothing
else.  A disk that is loaded stays so: its unloading follows a null pointer.
-/
theorem fsdsk_loads_conserve {s : State Answers Resource} (h : (lives fsdsk).Reachable s) :
    (∀ r, Use.held s.log r = (if s.loaded then 1 else 0) +
      if r = .queue then (s.failed.filter fun answers => ReachesDisk answers).length else 0) ∧
    (s.loaded = false →
      (Use.Balanced s.log ↔ ∀ answers ∈ s.failed, ¬ ReachesDisk answers)) ∧
    (s.loaded = true → ∀ label, (lives fsdsk).step s label = none) := by
  have hconserved := conserved_of_reachable fsdsk_climbs h
  refine ⟨fun r => ?_, fun hunloaded => ?_, fun hloaded label => ?_⟩
  · rw [hconserved.held, count_left]
    cases s.loaded <;> cases r <;> simp [names]
  · rw [hconserved.balanced_iff hunloaded]
    refine forall₂_congr fun answers _ => ?_
    by_cases hreaches : ReachesDisk answers <;> simp [left, hreaches]
  · cases label with
    | insmod answers => simp only [lives, step, hloaded, if_true]
    | rmmod =>
        simp only [lives, step, hloaded, if_true]
        rfl

def granted : Answers := ⟨254, true, true, true, true⟩

/-- The first load finds no memory for the disk, the second succeeds. -/
theorem fsdsk_reloaded :
    ∃ s, (lives fsdsk).run ⟨false, [], []⟩
        [.insmod { granted with allocDisk := false }, .insmod granted] = some s ∧
      Use.held s.log .queue = 2 ∧ (lives fsdsk).step s .rmmod = none := by
  have hrun : ∃ s, (lives fsdsk).run ⟨false, [], []⟩
      [.insmod { granted with allocDisk := false }, .insmod granted] = some s ∧
      s.loaded = true ∧ s.failed = [{ granted with allocDisk := false }] :=
    ⟨_, rfl, rfl, rfl⟩
  obtain ⟨s, hrun, hloaded, hfailed⟩ := hrun
  obtain ⟨hheld, -, hends⟩ := fsdsk_loads_conserve (System.reachable_of_run rfl hrun)
  refine ⟨s, hrun, ?_, hends hloaded .rmmod⟩
  rw [hheld, hloaded, hfailed]
  rfl

end FarsightDriver.RamDisk.Lifetime
