import FarsightDriver.Foundation.Checked
import FarsightDriver.Foundation.Masked
import FarsightDriver.Foundation.System
import FarsightDriver.Foundation.Words

/-!
# The LEDs of different minors

A file remembers the minor that it was opened on and commands the LED of that
minor.  The bases of the two register blocks are global and are written by every
`myopen`, which also makes the two pins outputs.

What `ioremap` returns is up to the kernel, at every call anew.  A pointer stands for
the physical address that it gives access to.
-/

namespace FarsightDriver.Led.Minors

open FarsightDriver.Foundation

/-- `_IOW('L', nr, int)`. -/
def iow (nr : U32) : U32 := 1 <<< 30 ||| 4 <<< 16 ||| 0x4c <<< 8 ||| nr

def cmdLedOn : U32 := iow 0

def cmdLedOff : U32 := iow 1

def einval : Int := 22

abbrev Addr := Nat

abbrev Memory := Addr → U32

structure Mycdev where
  gpx1base : Option Addr
  gpx2base : Option Addr

/-- `files` holds the `private_data` of each open file. -/
structure State where
  mydev : Mycdev
  files : List Nat
  mem : Memory

def ioread32 (mem : Memory) : Option Addr → Checked U32
  | none => .error .nullPointer
  | some addr => .ok (mem addr)

def iowrite32 (mem : Memory) (value : U32) : Option Addr → Checked Memory
  | none => .error .nullPointer
  | some addr => .ok (Function.update mem addr value)

/-- `base + 1`. -/
def next (base : Option Addr) : Option Addr := base.map (· + 4)

/-- `ioremap` is what the kernel answers during the call; null is `none`. -/
def myopen (ioremap : Nat → Nat → Option Addr) (minor : Nat) (s : State) : Checked State := do
  let mydev : Mycdev := ⟨ioremap 0x11000c20 8, ioremap 0x11000c40 8⟩
  let con ← ioread32 s.mem mydev.gpx1base
  let mem ← iowrite32 s.mem ((con &&& ~~~0xf) ||| 1) mydev.gpx1base
  let con ← ioread32 mem mydev.gpx2base
  let mem ← iowrite32 mem ((con &&& ~~~((0xf : U32) <<< 28)) ||| (1 : U32) <<< 28) mydev.gpx2base
  return ⟨mydev, s.files ++ [minor], mem⟩

def ledOn (num : Int) (s : State) : Checked Memory :=
  if num = 1 then do
    let dat ← ioread32 s.mem (next s.mydev.gpx1base)
    iowrite32 s.mem (dat ||| 1) (next s.mydev.gpx1base)
  else if num = 2 then do
    let dat ← ioread32 s.mem (next s.mydev.gpx2base)
    iowrite32 s.mem (dat ||| (1 : U32) <<< 7) (next s.mydev.gpx2base)
  else .ok s.mem

def ledOff (num : Int) (s : State) : Checked Memory :=
  if num = 1 then do
    let dat ← ioread32 s.mem (next s.mydev.gpx1base)
    iowrite32 s.mem (dat &&& ~~~1) (next s.mydev.gpx1base)
  else if num = 2 then do
    let dat ← ioread32 s.mem (next s.mydev.gpx2base)
    iowrite32 s.mem (dat &&& ~~~((1 : U32) <<< 7)) (next s.mydev.gpx2base)
  else .ok s.mem

def myunlockedIoctl (privateData : Nat) (cmd : U32) (s : State) : Checked (Int × State) := do
  let num := toInt32 privateData
  if cmd = cmdLedOn then
    let mem ← ledOn num s
    return (0, { s with mem := mem })
  else if cmd = cmdLedOff then
    let mem ← ledOff num s
    return (0, { s with mem := mem })
  else
    return (-einval, s)

/-- The device has the minors 0 to 3; files are numbered in the order they are opened. -/
inductive Label where
  | myopen (ioremap : Nat → Nat → Option Addr) (minor : Fin 4)
  | ioctl (file : Nat) (cmd : U32)

def system : System (Checked State) Label where
  init s := ∃ mem, s = .ok ⟨⟨none, none⟩, [], mem⟩
  step
    | .ok s, .myopen ioremap minor => some (myopen ioremap minor.val s)
    | .ok s, .ioctl file cmd =>
        s.files[file]?.map fun privateData =>
          (myunlockedIoctl privateData cmd s).map Prod.snd
    | .error _, _ => none

/-- Access is given to the addresses that are asked for. -/
def Label.Maps : Label → Prop
  | .myopen ioremap _ => ∀ offset size, ioremap offset size = some offset
  | .ioctl _ _ => True

/-! ## Commands -/

def onOff (cmd : U32) : Option Bool :=
  if cmd = cmdLedOn then some true else if cmd = cmdLedOff then some false else none

/-- The minor of a command, and whether it switches on. -/
def issuedBy (files : List Nat) : Label → List (Nat × Bool)
  | .myopen _ _ => []
  | .ioctl file cmd =>
      match files[file]?, onOff cmd with
      | some minor, some on => [(minor, on)]
      | _, _ => []

def opened (files : List Nat) : Label → List Nat
  | .myopen _ minor => files ++ [minor.val]
  | .ioctl _ _ => files

/-- The commands of a sequence that starts with these open files. -/
def issued : List Nat → List Label → List (Nat × Bool)
  | _, [] => []
  | files, label :: rest => issuedBy files label ++ issued (opened files label) rest

def lastCommand (minor : Nat) (commands : List (Nat × Bool)) : Option Bool :=
  (commands.filter fun command => command.1 = minor).getLast?.map Prod.snd

theorem lastCommand_append (minor : Nat) (front back : List (Nat × Bool)) :
    lastCommand minor (front ++ back) =
      (lastCommand minor back).or (lastCommand minor front) := by
  unfold lastCommand
  rw [List.filter_append, List.getLast?_append]
  cases (back.filter fun command => command.1 = minor).getLast? <;> rfl

/-! ## Lamps -/

/-- A minor, its two registers, its pin in the one and its bit in the other. -/
structure Lamp where
  minor : Nat
  con : Addr
  dat : Addr
  pin : Masked 32
  bit : Nat
  deriving DecidableEq

def gpx1con : Addr := 0x11000c20

def gpx1dat : Addr := 0x11000c24

def gpx2con : Addr := 0x11000c40

def gpx2dat : Addr := 0x11000c44

def lamp1 : Lamp := ⟨1, gpx1con, gpx1dat, ⟨0xf, 1⟩, 0⟩

def lamp2 : Lamp := ⟨2, gpx2con, gpx2dat, ⟨0xf <<< 28, 1 <<< 28⟩, 7⟩

def lamps : List Lamp := [lamp1, lamp2]

def Lamp.switch (lamp : Lamp) (on : Bool) : Masked 32 :=
  if on then ⟨0, (1 : U32) <<< lamp.bit⟩ else ⟨(1 : U32) <<< lamp.bit, 0⟩

def initPins (mem : Memory) : Memory :=
  lamp2.pin.store lamp2.con (lamp1.pin.store lamp1.con mem)

def lampOf (minor : Nat) : Option Lamp := lamps.find? fun lamp => lamp.minor = minor

def command (minor : Nat) (cmd : U32) (mem : Memory) : Memory :=
  match onOff cmd, lampOf minor with
  | some on, some lamp => (lamp.switch on).store lamp.dat mem
  | _, _ => mem

theorem switch_on (lamp : Lamp) (dat : U32) :
    (lamp.switch true).apply dat = dat ||| (1 : U32) <<< lamp.bit := by
  have hkeep : dat &&& ~~~(0 : U32) = dat := by
    rw [BitVec.ofNat_eq_ofNat, BitVec.not_zero, BitVec.and_allOnes]
  rw [Lamp.switch, if_pos rfl, Masked.apply, hkeep]

theorem switch_off (lamp : Lamp) (dat : U32) :
    (lamp.switch false).apply dat = dat &&& ~~~((1 : U32) <<< lamp.bit) :=
  BitVec.or_zero

/-! ## Calls -/

theorem myopen_eq {ioremap : Nat → Nat → Option Addr}
    (hmaps : ∀ offset size, ioremap offset size = some offset) (minor : Nat) (s : State) :
    myopen ioremap minor s =
      .ok ⟨⟨some gpx1con, some gpx2con⟩, s.files ++ [minor], initPins s.mem⟩ := by
  rw [myopen, hmaps, hmaps]
  rfl

/-- As long as no file is open, the bases are not needed. -/
structure Inv (s : State) : Prop where
  minors : ∀ minor ∈ s.files, minor < 4
  mapped : s.files ≠ [] → s.mydev = ⟨some gpx1con, some gpx2con⟩

/-- The branches of `led_on` and `led_off` read a register, change it and write it back. -/
theorem readModifyWrite_eq {u : Masked 32} {change : U32 → U32}
    (h : ∀ dat, u.apply dat = change dat) (addr : Addr) (mem : Memory) :
    ((ioread32 mem (some addr)).bind fun dat => iowrite32 mem (change dat) (some addr)) =
      .ok (u.store addr mem) := by
  have hdat := h (mem addr)
  exact congrArg (fun dat => Except.ok (Function.update mem addr dat)) hdat.symm

theorem ledOn_eq {s : State} (h : s.mydev = ⟨some gpx1con, some gpx2con⟩) {minor : Nat}
    (hminor : minor < 4) : ledOn minor s = .ok (command minor cmdLedOn s.mem) := by
  have hcmd : onOff cmdLedOn = some true := by decide
  unfold ledOn command
  rw [hcmd, h]
  match minor, hminor with
  | 0, _ => rfl
  | 1, _ => exact readModifyWrite_eq (switch_on lamp1) gpx1dat s.mem
  | 2, _ => exact readModifyWrite_eq (switch_on lamp2) gpx2dat s.mem
  | 3, _ => rfl

theorem ledOff_eq {s : State} (h : s.mydev = ⟨some gpx1con, some gpx2con⟩) {minor : Nat}
    (hminor : minor < 4) : ledOff minor s = .ok (command minor cmdLedOff s.mem) := by
  have hcmd : onOff cmdLedOff = some false := by decide
  unfold ledOff command
  rw [hcmd, h]
  match minor, hminor with
  | 0, _ => rfl
  | 1, _ => exact readModifyWrite_eq (switch_off lamp1) gpx1dat s.mem
  | 2, _ => exact readModifyWrite_eq (switch_off lamp2) gpx2dat s.mem
  | 3, _ => rfl

theorem command_unknown {cmd : U32} (h : onOff cmd = none) (minor : Nat) (mem : Memory) :
    command minor cmd mem = mem := by
  rw [command, h]

theorem myunlockedIoctl_eq {s : State} (h : Inv s) {minor : Nat} (hfile : minor ∈ s.files)
    (cmd : U32) :
    (myunlockedIoctl minor cmd s).map Prod.snd =
      .ok { s with mem := command minor cmd s.mem } := by
  have hminor := h.minors minor hfile
  have hmapped := h.mapped (List.ne_nil_of_mem hfile)
  have hnum : toInt32 minor = minor := toInt32_of_small (by omega) (by omega)
  unfold myunlockedIoctl
  simp only [hnum]
  by_cases hon : cmd = cmdLedOn
  · rw [if_pos hon, ledOn_eq hmapped hminor, hon]
    rfl
  · by_cases hoff : cmd = cmdLedOff
    · rw [if_neg hon, if_pos hoff, ledOff_eq hmapped hminor, hoff]
      rfl
    · have hunknown : onOff cmd = none := by rw [onOff, if_neg hon, if_neg hoff]
      rw [if_neg hon, if_neg hoff, command_unknown hunknown]
      rfl

/-! ## What the commands change -/

/-- Between two memories, a lamp follows the commands of its minor and nothing else changes. -/
structure Follows (lamp : Lamp) (mem mem' : Memory) (commands : List (Nat × Bool)) : Prop where
  lit : (mem' lamp.dat).getLsbD lamp.bit =
    (lastCommand lamp.minor commands).getD ((mem lamp.dat).getLsbD lamp.bit)
  dat : ∀ i, i ≠ lamp.bit → (mem' lamp.dat).getLsbD i = (mem lamp.dat).getLsbD i
  con : ∀ i, lamp.pin.clear.getLsbD i = false →
    (mem' lamp.con).getLsbD i = (mem lamp.con).getLsbD i

structure Isolated (mem mem' : Memory) (commands : List (Nat × Bool)) : Prop where
  follows : ∀ lamp ∈ lamps, Follows lamp mem mem' commands
  others : ∀ addr, (∀ lamp ∈ lamps, addr ≠ lamp.con ∧ addr ≠ lamp.dat) → mem' addr = mem addr

theorem Follows.trans {lamp : Lamp} {mem mem' mem'' : Memory} {front back : List (Nat × Bool)}
    (h : Follows lamp mem mem' front) (h' : Follows lamp mem' mem'' back) :
    Follows lamp mem mem'' (front ++ back) where
  lit := by
    rw [h'.lit, h.lit, lastCommand_append]
    cases lastCommand lamp.minor back <;> rfl
  dat i hi := (h'.dat i hi).trans (h.dat i hi)
  con i hi := (h'.con i hi).trans (h.con i hi)

theorem Isolated.refl (mem : Memory) : Isolated mem mem [] where
  follows _ _ := ⟨rfl, fun _ _ => rfl, fun _ _ => rfl⟩
  others _ _ := rfl

theorem Isolated.trans {mem mem' mem'' : Memory} {front back : List (Nat × Bool)}
    (h : Isolated mem mem' front) (h' : Isolated mem' mem'' back) :
    Isolated mem mem'' (front ++ back) where
  follows lamp hlamp := (h.follows lamp hlamp).trans (h'.follows lamp hlamp)
  others addr haddr := (h'.others addr haddr).trans (h.others addr haddr)

/-- No two lamps share a register, and none has its pin and its bit in one. -/
theorem lamps_apart : ∀ lamp ∈ lamps, ∀ other ∈ lamps,
    lamp.con ≠ other.dat ∧
      (lamp ≠ other →
        lamp.minor ≠ other.minor ∧ lamp.con ≠ other.con ∧ lamp.dat ≠ other.dat) := by decide

theorem lastCommand_singleton (minor other : Nat) (on : Bool) :
    lastCommand minor [(other, on)] = if other = minor then some on else none := by
  by_cases h : other = minor <;> simp [lastCommand, h]

theorem pin_spared {lamp : Lamp} (h : lamp ∈ lamps) {i : Nat}
    (hclear : lamp.pin.clear.getLsbD i = false) : lamp.pin.set.getLsbD i = false := by
  have hwithin : ∀ lamp ∈ lamps, lamp.pin.set &&& lamp.pin.clear = lamp.pin.set := by decide
  rw [← hwithin lamp h, BitVec.getLsbD_and, hclear, Bool.and_false]

theorem isolated_pin {other : Lamp} (hother : other ∈ lamps) (mem : Memory) :
    Isolated mem (other.pin.store other.con mem) [] := by
  refine ⟨fun lamp hlamp => ?_, fun addr haddr => Masked.store_of_ne _ (haddr other hother).1 mem⟩
  have hdat : lamp.dat ≠ other.con := (lamps_apart other hother lamp hlamp).1.symm
  refine ⟨?_, fun i _ => ?_, fun i hi => ?_⟩
  · rw [Masked.store_of_ne _ hdat]
    rfl
  · rw [Masked.store_of_ne _ hdat]
  · by_cases hsame : lamp = other
    · subst hsame
      rw [Masked.store_self, Masked.getLsbD_of_spared hi (pin_spared hlamp hi)]
    · have hcon := ((lamps_apart lamp hlamp other hother).2 hsame).2.1
      rw [Masked.store_of_ne _ hcon]

theorem isolated_initPins (mem : Memory) : Isolated mem (initPins mem) [] :=
  (isolated_pin (by decide : lamp1 ∈ lamps) mem).trans
    (isolated_pin (by decide : lamp2 ∈ lamps) (lamp1.pin.store lamp1.con mem))

theorem getLsbD_mask (lamp : Lamp) (i : Nat) :
    ((1 : U32) <<< lamp.bit).getLsbD i = (decide (i < 32) && decide (i = lamp.bit)) := by
  simp only [BitVec.ofNat_eq_ofNat, BitVec.getLsbD_shiftLeft, BitVec.getLsbD_one]
  grind

theorem getLsbD_switch {lamp : Lamp} (h : lamp ∈ lamps) (on : Bool) (dat : U32) (i : Nat) :
    ((lamp.switch on).apply dat).getLsbD i = if i = lamp.bit then on else dat.getLsbD i := by
  have hbit : lamp.bit < 32 := (by decide : ∀ lamp ∈ lamps, lamp.bit < 32) lamp h
  have hzero : (0 : U32).getLsbD i = false := BitVec.getLsbD_zero
  have hmask := getLsbD_mask lamp i
  by_cases hi : i = lamp.bit
  · rw [decide_eq_true (hi ▸ hbit), decide_eq_true hi, Bool.true_and] at hmask
    rw [if_pos hi]
    cases on with
    | true => exact Masked.getLsbD_of_set (u := lamp.switch true) hmask dat
    | false => exact Masked.getLsbD_of_cleared (u := lamp.switch false) hmask hzero dat
  · rw [decide_eq_false hi, Bool.and_false] at hmask
    rw [if_neg hi]
    cases on with
    | true => exact Masked.getLsbD_of_spared (u := lamp.switch true) hzero hmask dat
    | false => exact Masked.getLsbD_of_spared (u := lamp.switch false) hmask hzero dat

theorem isolated_switch {other : Lamp} (hother : other ∈ lamps) (on : Bool) (mem : Memory) :
    Isolated mem ((other.switch on).store other.dat mem) [(other.minor, on)] := by
  refine ⟨fun lamp hlamp => ?_, fun addr haddr => Masked.store_of_ne _ (haddr other hother).2 mem⟩
  have hcon : lamp.con ≠ other.dat := (lamps_apart lamp hlamp other hother).1
  by_cases hsame : lamp = other
  · subst hsame
    refine ⟨?_, fun i hi => ?_, fun i _ => ?_⟩
    · rw [Masked.store_self, getLsbD_switch hlamp, if_pos rfl, lastCommand_singleton, if_pos rfl]
      rfl
    · rw [Masked.store_self, getLsbD_switch hlamp, if_neg hi]
    · rw [Masked.store_of_ne _ hcon]
  · obtain ⟨hminor, -, hdat⟩ := (lamps_apart lamp hlamp other hother).2 hsame
    refine ⟨?_, fun i _ => ?_, fun i _ => ?_⟩
    · rw [Masked.store_of_ne _ hdat, lastCommand_singleton, if_neg hminor.symm]
      rfl
    · rw [Masked.store_of_ne _ hdat]
    · rw [Masked.store_of_ne _ hcon]

theorem isolated_command (minor : Nat) (cmd : U32) (mem : Memory) :
    Isolated mem (command minor cmd mem)
      ((onOff cmd).toList.map fun on => (minor, on)) := by
  unfold command
  cases hcmd : onOff cmd with
  | none => exact .refl mem
  | some on =>
      cases hlamp : lampOf minor with
      | none =>
          refine ⟨fun lamp hmem => ⟨?_, fun _ _ => rfl, fun _ _ => rfl⟩, fun _ _ => rfl⟩
          have hother := List.find?_eq_none.mp hlamp lamp hmem
          have hminor : ¬ minor = lamp.minor := by simpa [eq_comm] using hother
          rw [Option.toList_some, List.map_singleton, lastCommand_singleton, if_neg hminor]
          rfl
      | some lamp =>
          have hminor : lamp.minor = minor := by simpa using List.find?_some hlamp
          have hmem := List.mem_of_find?_eq_some hlamp
          rw [← hminor]
          exact isolated_switch hmem on mem

/-! ## Runs -/

theorem inv_loaded (mem : Memory) : Inv ⟨⟨none, none⟩, [], mem⟩ :=
  ⟨fun _ hmem => absurd hmem List.not_mem_nil, fun h => absurd rfl h⟩

theorem system_step {s : State} (h : Inv s) {label : Label} (hmaps : label.Maps)
    {r : Checked State} (hstep : system.step (.ok s) label = some r) :
    ∃ s', r = .ok s' ∧ Inv s' ∧ s'.files = opened s.files label ∧
      Isolated s.mem s'.mem (issuedBy s.files label) := by
  cases label with
  | myopen ioremap _ =>
      simp only [system, myopen_eq hmaps, Option.some.injEq] at hstep
      refine ⟨_, hstep.symm, ⟨fun other hother => ?_, fun _ => rfl⟩, rfl,
        isolated_initPins s.mem⟩
      rcases List.mem_append.mp hother with hfront | hlast
      · exact h.minors other hfront
      · rw [List.mem_singleton.mp hlast]
        exact Fin.isLt _
  | ioctl file cmd =>
      obtain ⟨minor, hfile, hcall⟩ := Option.map_eq_some_iff.mp hstep
      rw [myunlockedIoctl_eq h (List.mem_of_getElem? hfile)] at hcall
      refine ⟨_, hcall.symm, ⟨h.minors, h.mapped⟩, rfl, ?_⟩
      have hissued : issuedBy s.files (.ioctl file cmd) =
          (onOff cmd).toList.map fun on => (minor, on) := by
        rw [issuedBy, hfile]
        cases onOff cmd <;> rfl
      rw [hissued]
      exact isolated_command minor cmd s.mem

theorem run_isolated {s : State} (h : Inv s) {labels : List Label}
    (hmaps : ∀ label ∈ labels, label.Maps) {r : Checked State}
    (hrun : system.run (.ok s) labels = some r) :
    ∃ final, r = .ok final ∧ Inv final ∧ Isolated s.mem final.mem (issued s.files labels) := by
  induction labels generalizing s with
  | nil =>
      rw [System.run_nil, Option.some.injEq] at hrun
      exact ⟨s, hrun.symm, h, .refl s.mem⟩
  | cons label rest ih =>
      obtain ⟨middle, hstep, hrest⟩ := Option.bind_eq_some_iff.mp hrun
      obtain ⟨hmap, hmaps⟩ := List.forall_mem_cons.mp hmaps
      obtain ⟨s', rfl, hinv, hfiles, hfirst⟩ := system_step h hmap hstep
      obtain ⟨final, hfinal, hinv', hothers⟩ := ih hinv hmaps hrest
      rw [hfiles] at hothers
      exact ⟨final, hfinal, hinv', hfirst.trans hothers⟩

/-! ## Commands of different minors -/

theorem command_comm {minor other : Nat} (h : minor ≠ other) (cmd cmd' : U32) (mem : Memory) :
    command minor cmd (command other cmd' mem) = command other cmd' (command minor cmd mem) := by
  unfold command
  cases onOff cmd with
  | none => rfl
  | some on =>
      cases hlamp : lampOf minor with
      | none => rfl
      | some lamp =>
          cases onOff cmd' with
          | none => rfl
          | some on' =>
              cases hlamp' : lampOf other with
              | none => rfl
              | some lamp' =>
                  have hne : lamp ≠ lamp' := by
                    rintro rfl
                    have hminor : lamp.minor = minor := by simpa using List.find?_some hlamp
                    have hother : lamp.minor = other := by simpa using List.find?_some hlamp'
                    exact h (hminor.symm.trans hother)
                  have hdat := ((lamps_apart lamp (List.mem_of_find?_eq_some hlamp) lamp'
                    (List.mem_of_find?_eq_some hlamp')).2 hne).2.2
                  exact Masked.store_comm _ _ hdat mem

theorem run_two {s : State} (h : Inv s) {f g minor other : Nat} (hf : s.files[f]? = some minor)
    (hg : s.files[g]? = some other) (cmd cmd' : U32) :
    system.run (.ok s) [.ioctl f cmd, .ioctl g cmd'] =
      some (.ok { s with mem := command other cmd' (command minor cmd s.mem) }) := by
  have hfirst : system.step (.ok s) (.ioctl f cmd) =
      some (.ok { s with mem := command minor cmd s.mem }) := by
    simp only [system, hf, Option.map_some, myunlockedIoctl_eq h (List.mem_of_getElem? hf)]
  have hinv : Inv { s with mem := command minor cmd s.mem } := ⟨h.minors, h.mapped⟩
  have hsecond : system.step (.ok { s with mem := command minor cmd s.mem }) (.ioctl g cmd') =
      some (.ok { s with mem := command other cmd' (command minor cmd s.mem) }) := by
    simp only [system, hg, Option.map_some, myunlockedIoctl_eq hinv (List.mem_of_getElem? hg)]
  rw [System.run_cons, hfirst]
  exact (congrArg (Option.bind · _) hsecond).trans rfl

/--
When `ioremap` gives access to the registers, each data bit is what the last
command of its minor has made of it, the other bits are what they were, and
commands of different minors may be exchanged.
-/
theorem minors_isolated (mem : Memory) (labels : List Label)
    (hmaps : ∀ label ∈ labels, label.Maps) {r : Checked State}
    (hrun : system.run (.ok ⟨⟨none, none⟩, [], mem⟩) labels = some r) :
    ∃ final, r = .ok final ∧
      (final.mem gpx1dat).getLsbD 0 =
        (lastCommand 1 (issued [] labels)).getD ((mem gpx1dat).getLsbD 0) ∧
      (final.mem gpx2dat).getLsbD 7 =
        (lastCommand 2 (issued [] labels)).getD ((mem gpx2dat).getLsbD 7) ∧
      (∀ i, i ≠ 0 → (final.mem gpx1dat).getLsbD i = (mem gpx1dat).getLsbD i) ∧
      (∀ i, i ≠ 7 → (final.mem gpx2dat).getLsbD i = (mem gpx2dat).getLsbD i) ∧
      (∀ i, 4 ≤ i → (final.mem gpx1con).getLsbD i = (mem gpx1con).getLsbD i) ∧
      (∀ i, i < 28 → (final.mem gpx2con).getLsbD i = (mem gpx2con).getLsbD i) ∧
      (∀ addr, addr ∉ [gpx1con, gpx1dat, gpx2con, gpx2dat] → final.mem addr = mem addr) ∧
      ∀ f g minor other cmd cmd', final.files[f]? = some minor → final.files[g]? = some other →
        minor ≠ other →
          system.run (.ok final) [.ioctl f cmd, .ioctl g cmd'] =
            system.run (.ok final) [.ioctl g cmd', .ioctl f cmd] := by
  obtain ⟨final, rfl, hinv, hisolated⟩ := run_isolated (inv_loaded mem) hmaps hrun
  have h1 := hisolated.follows lamp1 (by decide)
  have h2 := hisolated.follows lamp2 (by decide)
  refine ⟨final, rfl, h1.lit, h2.lit, h1.dat, h2.dat, fun i hi => h1.con i ?_,
    fun i hi => h2.con i ?_, fun addr haddr => hisolated.others addr fun lamp hlamp => ?_, ?_⟩
  · exact Masked.getLsbD_of_toNat_lt (by decide : lamp1.pin.clear.toNat < 2 ^ 4) hi
  · have hshift : lamp2.pin.clear = (0xf : U32) <<< 28 := rfl
    rw [hshift, BitVec.getLsbD_shiftLeft, decide_eq_true hi, Bool.not_true, Bool.and_false,
      Bool.false_and]
  · have hnot : ∀ lamp ∈ lamps, lamp.con ∈ [gpx1con, gpx1dat, gpx2con, gpx2dat] ∧
        lamp.dat ∈ [gpx1con, gpx1dat, gpx2con, gpx2dat] := by decide
    refine ⟨?_, ?_⟩
    · rintro rfl
      exact haddr (hnot lamp hlamp).1
    · rintro rfl
      exact haddr (hnot lamp hlamp).2
  · intro f g minor other cmd cmd' hf hg hne
    rw [run_two hinv hf hg, run_two hinv hg hf, command_comm hne]

/-- Two files on minor 1 and one on minor 2. -/
def threeFiles : List Label :=
  [.myopen (fun offset _ => some offset) 1, .myopen (fun offset _ => some offset) 2,
    .ioctl 0 cmdLedOn, .myopen (fun offset _ => some offset) 1, .ioctl 2 cmdLedOff,
    .ioctl 1 cmdLedOn]

theorem threeFiles_maps : ∀ label ∈ threeFiles, label.Maps := by
  simp [threeFiles, Label.Maps]

theorem three_files_isolated :
    ∃ final, system.run (.ok ⟨⟨none, none⟩, [], fun _ => 0⟩) threeFiles = some (.ok final) ∧
      (final.mem gpx1dat).getLsbD 0 = false ∧ (final.mem gpx2dat).getLsbD 7 = true ∧
      system.run (.ok final) [.ioctl 0 cmdLedOn, .ioctl 1 cmdLedOff] =
        system.run (.ok final) [.ioctl 1 cmdLedOff, .ioctl 0 cmdLedOn] := by
  obtain ⟨r, hrun⟩ :
      ∃ r, system.run (.ok ⟨⟨none, none⟩, [], fun _ => 0⟩) threeFiles = some r := ⟨_, rfl⟩
  obtain ⟨final, rfl, hfirst, hsecond, -, -, -, -, -, hcomm⟩ :=
    minors_isolated (fun _ => 0) threeFiles threeFiles_maps hrun
  have hfiles : final.files = [1, 2, 1] := by
    cases hrun
    rfl
  refine ⟨final, hrun, hfirst.trans (by decide), hsecond.trans (by decide), ?_⟩
  exact hcomm 0 1 1 2 _ _ (by rw [hfiles]; rfl) (by rw [hfiles]; rfl) (by decide)

end FarsightDriver.Led.Minors
