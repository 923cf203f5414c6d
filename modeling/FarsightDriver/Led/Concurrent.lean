import FarsightDriver.Foundation.Updates
import FarsightDriver.Led.Minors

/-!
# Concurrent calls of the LED driver

`myopen` and `myunlocked_ioctl` take no lock, and each of their `iowrite32`
writes back what an earlier `ioread32` has read.  Calls of several processes may
therefore be interleaved between the two.
-/

namespace FarsightDriver.Led.Minors

open FarsightDriver.Foundation
open FarsightDriver.Foundation.Updates (Update serial Absorbs Absorbing Allowed Calls)

/-! ## The updates of the calls -/

def openUpdates : List (Update Addr 32) := lamps.map fun lamp => (lamp.con, lamp.pin)

def ioctlUpdates (minor : Nat) (cmd : U32) : List (Update Addr 32) :=
  match onOff cmd, lampOf minor with
  | some on, some lamp => [(lamp.dat, lamp.switch on)]
  | _, _ => []

theorem myopen_serial {ioremap : Nat → Nat → Option Addr}
    (hmaps : ∀ offset size, ioremap offset size = some offset) (minor : Nat) (s : State) :
    (myopen ioremap minor s).map State.mem = .ok (serial s.mem openUpdates) := by
  rw [myopen_eq hmaps]
  rfl

theorem command_serial (minor : Nat) (cmd : U32) (mem : Memory) :
    command minor cmd mem = serial mem (ioctlUpdates minor cmd) := by
  unfold command ioctlUpdates
  cases onOff cmd <;> cases lampOf minor <;> rfl

theorem myunlockedIoctl_serial {s : State} (h : Inv s) {minor : Nat} (hfile : minor ∈ s.files)
    (cmd : U32) :
    (myunlockedIoctl minor cmd s).map Prod.snd =
      .ok { s with mem := serial s.mem (ioctlUpdates minor cmd) } := by
  rw [myunlockedIoctl_eq h hfile, command_serial]

/-- What a process asks of the driver. -/
def Called (program : List (Update Addr 32)) : Prop :=
  program = openUpdates ∨ ∃ minor cmd, program = ioctlUpdates minor cmd

theorem allowed_cases {update : Update Addr 32} (h : Allowed Called update) :
    ∃ lamp ∈ lamps, update = (lamp.con, lamp.pin) ∨ ∃ on, update = (lamp.dat, lamp.switch on) := by
  obtain ⟨program, rfl | ⟨minor, cmd, rfl⟩, hmem⟩ := h
  · obtain ⟨lamp, hlamp, heq⟩ := List.mem_map.mp hmem
    exact ⟨lamp, hlamp, .inl heq.symm⟩
  · unfold ioctlUpdates at hmem
    cases hcmd : onOff cmd with
    | none => simp [hcmd] at hmem
    | some on =>
        cases hlamp : lampOf minor with
        | none => simp [hcmd, hlamp] at hmem
        | some lamp =>
            simp only [hcmd, hlamp, List.mem_singleton] at hmem
            exact ⟨lamp, List.mem_of_find?_eq_some hlamp, .inr ⟨on, hmem⟩⟩

/-! ## The updates of one register -/

theorem pin_absorbs (lamp : Lamp) : Absorbs lamp.pin lamp.pin :=
  Updates.absorbs_of_covers fun _ => id

theorem switch_absorbs (lamp : Lamp) (on on' : Bool) :
    Absorbs (lamp.switch on) (lamp.switch on') := by
  refine Updates.absorbs_of_covers fun i h => ?_
  cases on <;> cases on' <;> simp_all [Lamp.switch]

theorem called_absorbing : Absorbing Called := by
  intro update update' h h' haddr
  obtain ⟨lamp, hlamp, rfl | ⟨on, rfl⟩⟩ := allowed_cases h
  all_goals obtain ⟨other, hother, rfl | ⟨on', rfl⟩⟩ := allowed_cases h'
  · by_cases hsame : lamp = other
    · exact hsame ▸ pin_absorbs lamp
    · exact absurd haddr ((lamps_apart lamp hlamp other hother).2 hsame).2.1
  · exact absurd haddr (lamps_apart lamp hlamp other hother).1
  · exact absurd haddr.symm (lamps_apart other hother lamp hlamp).1
  · by_cases hsame : lamp = other
    · exact hsame ▸ switch_absorbs lamp on on'
    · exact absurd haddr ((lamps_apart lamp hlamp other hother).2 hsame).2.2

/-! ## Interleaved calls -/

/-- The minor that an update switches, and whether it switches on. -/
def commandOf (update : Update Addr 32) : Option (Nat × Bool) :=
  (lamps.find? fun lamp => lamp.dat = update.1).map fun lamp =>
    (lamp.minor, decide (update.2 = lamp.switch true))

theorem commandOf_pin {lamp : Lamp} (h : lamp ∈ lamps) : commandOf (lamp.con, lamp.pin) = none :=
  (by decide : ∀ lamp ∈ lamps, commandOf (lamp.con, lamp.pin) = none) lamp h

theorem commandOf_switch {lamp : Lamp} (h : lamp ∈ lamps) (on : Bool) :
    commandOf (lamp.dat, lamp.switch on) = some (lamp.minor, on) :=
  (by decide : ∀ lamp ∈ lamps, ∀ on, commandOf (lamp.dat, lamp.switch on) = some (lamp.minor, on))
    lamp h on

theorem isolated_update {update : Update Addr 32} (h : Allowed Called update) (mem : Memory) :
    Isolated mem (update.2.store update.1 mem) (commandOf update).toList := by
  obtain ⟨lamp, hlamp, rfl | ⟨on, rfl⟩⟩ := allowed_cases h
  · rw [commandOf_pin hlamp]
    exact isolated_pin hlamp mem
  · rw [commandOf_switch hlamp]
    exact isolated_switch hlamp on mem

theorem isolated_serial {stores : List (Update Addr 32)}
    (h : ∀ update ∈ stores, Allowed Called update) (mem : Memory) :
    Isolated mem (serial mem stores) (stores.filterMap commandOf) := by
  induction stores generalizing mem with
  | nil => exact .refl mem
  | cons update rest ih =>
      have hfirst := isolated_update (h update List.mem_cons_self) mem
      have hrest := ih (fun update' hmem => h update' (List.mem_cons_of_mem _ hmem))
        (update.2.store update.1 mem)
      have hcommands : (update :: rest).filterMap commandOf =
          (commandOf update).toList ++ rest.filterMap commandOf := by
        rw [List.filterMap_cons]
        cases commandOf update <;> rfl
      rw [hcommands]
      exact hfirst.trans hrest

theorem pin_settled {lamp : Lamp} (hlamp : lamp ∈ lamps) {update : Update Addr 32}
    (h : Allowed Called update) (haddr : update.1 = lamp.con) (data : U32) :
    lamp.pin.apply (update.2.apply data) = update.2.apply data := by
  obtain ⟨other, hother, rfl | ⟨on, rfl⟩⟩ := allowed_cases h
  · by_cases hsame : lamp = other
    · exact hsame ▸ pin_absorbs lamp data
    · exact absurd haddr.symm ((lamps_apart lamp hlamp other hother).2 hsame).2.1
  · exact absurd haddr.symm (lamps_apart lamp hlamp other hother).1

/--
No switching is lost although nothing keeps the calls apart: each data bit is
what the last `iowrite32` of its minor has made of it, and no other bit changes.
A pin that an open has made an output stays one.
-/
theorem concurrent_calls_isolated {P : Type} [DecidableEq P] (mem : Memory)
    {s : Updates.State Addr P 32} (h : (Updates.system mem).ReachableWith (Calls Called) s) :
    Isolated mem s.mem (s.stores.filterMap commandOf) ∧
      ∀ lamp ∈ lamps, (lamp.con, lamp.pin) ∈ s.stores →
        lamp.pin.apply (s.mem lamp.con) = s.mem lamp.con := by
  have hinv := Updates.inv_reachable called_absorbing h
  rw [hinv.serial]
  refine ⟨isolated_serial hinv.stores mem, fun lamp hlamp hmem => ?_⟩
  have hsettled : ∀ update ∈ s.stores, update.1 = (lamp.con, lamp.pin).1 → ∀ data,
      (lamp.con, lamp.pin).2.apply (update.2.apply data) = update.2.apply data :=
    fun update hstore haddr data => pin_settled hlamp (hinv.stores update hstore) haddr data
  exact Updates.serial_settled hsettled hmem mem

/-- One process switches a lamp on and another switches it off in between. -/
theorem concurrent_switches_isolated : ∃ s : Updates.State Addr Bool 32,
    (Updates.system fun _ => 0).ReachableWith (Calls Called) s ∧ (∀ p, s.todo p = []) ∧
      (s.mem gpx1dat).getLsbD 0 = true ∧ (s.mem gpx2dat).getLsbD 7 = false := by
  have hne : true ≠ false := by decide
  have hon : Called [(lamp1.dat, lamp1.switch true)] := .inr ⟨1, cmdLedOn, rfl⟩
  have hoff : Called [(lamp1.dat, lamp1.switch false)] := .inr ⟨1, cmdLedOff, rfl⟩
  obtain ⟨labels, s, hrun, hcalled, htodo, hstores, -⟩ :=
    Updates.overtaken hne [] [] [] [(lamp1.dat, lamp1.switch false)]
      (lamp1.dat, lamp1.switch true) fun _ => 0
  have h : (Updates.system fun _ => 0).ReachableWith (Calls Called) s := by
    refine Updates.reachable_run (.init (Updates.resting_init _)) hrun ?_
    rw [hcalled]
    exact List.forall_mem_cons.mpr ⟨hon, List.forall_mem_singleton.mpr hoff⟩
  obtain ⟨hisolated, -⟩ := concurrent_calls_isolated (fun _ => 0) h
  have hlit := (hisolated.follows lamp1 (by decide)).lit
  have hdark := (hisolated.follows lamp2 (by decide)).lit
  rw [hstores] at hlit hdark
  exact ⟨s, h, htodo, hlit, hdark⟩

end FarsightDriver.Led.Minors
