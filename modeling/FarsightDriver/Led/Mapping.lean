import FarsightDriver.Foundation.Prefixes
import FarsightDriver.Foundation.Words

/-!
# The mapping of the LED driver

`LED_1_ON` maps the data register and `LED_1_OFF` unmaps it.  There is one pointer
for all files, so what it points to depends on all the commands before.
-/

namespace FarsightDriver.Led.Mapping

open FarsightDriver.Foundation

/-- `_IOR('l', nr, int)`. -/
def ior (nr : U32) : U32 := 2 <<< 30 ||| 4 <<< 16 ||| 0x6c <<< 8 ||| nr

def led1On : U32 := ior 11

def led1Off : U32 := ior 10

/-- What `ioremap` returns; null is `none`. -/
abbrev Addr := Option Nat

inductive Effect where
  | ioremap (offset size : Nat) (mapped : Addr)
  | iowrite32 (value : U32) (addr : Addr)
  | iounmap (addr : Addr)
  deriving DecidableEq

/-- `led_data`, and the calls to the kernel so far. -/
structure State where
  gpx2data : Addr
  effects : List Effect
  deriving DecidableEq

def State.call (s : State) (effect : Effect) : State :=
  { s with effects := s.effects ++ [effect] }

/-- `mapped` is what `ioremap` returns, should it be called. -/
def ledIoctl (mapped : Addr) (cmd : U32) (s : State) : Int × State :=
  if cmd = led1On then
    let s := { s.call (.ioremap 0x11000c44 4 mapped) with gpx2data := mapped }
    let s := s.call (.iowrite32 0xff s.gpx2data)
    (0, s)
  else if cmd = led1Off then
    let s := s.call (.iowrite32 0 s.gpx2data)
    let s := s.call (.iounmap s.gpx2data)
    (0, s)
  else (0, s)

/-- The driver does not look at the file that a command comes through. -/
structure Ioctl where
  file : Nat
  cmd : U32
  mapped : Addr
  deriving DecidableEq

/-- `led_init` leaves the pointer null. -/
def play (ioctls : List Ioctl) : State :=
  ioctls.foldl (fun s ioctl => (ledIoctl ioctl.mapped ioctl.cmd s).2) ⟨none, []⟩

/-! ## The protocol -/

def Effect.live (mappings : List Nat) : Effect → List Nat
  | .ioremap _ _ mapped => mapped.toList ++ mappings
  | .iowrite32 _ _ => mappings
  | .iounmap addr => addr.elim mappings mappings.erase

def live (effects : List Effect) : List Nat := effects.foldl Effect.live []

def Effect.Valid (mappings : List Nat) : Effect → Prop
  | .ioremap _ _ _ => True
  | .iowrite32 _ addr | .iounmap addr => ∃ m ∈ mappings, addr = some m

instance (mappings : List Nat) (effect : Effect) : Decidable (effect.Valid mappings) := by
  cases effect <;> unfold Effect.Valid <;> infer_instance

/-- All effects go through live mappings, of which there is never more than one. -/
def Protocol (effects : List Effect) : Prop :=
  AtEach (fun front effect =>
    effect.Valid (live front) ∧ (live (front ++ [effect])).length ≤ 1) effects

instance (effects : List Effect) : Decidable (Protocol effects) :=
  inferInstanceAs (Decidable (AtEach _ effects))

def Ioctl.switch (ioctl : Ioctl) : Option Bool :=
  if ioctl.cmd = led1On then some true else if ioctl.cmd = led1Off then some false else none

def LastOn (ioctls : List Ioctl) : Prop := (ioctls.filterMap Ioctl.switch).getLast? = some true

structure Turn (front : List Ioctl) (ioctl : Ioctl) : Prop where
  on : ioctl.switch = some true → ¬ LastOn front ∧ ioctl.mapped ≠ none
  off : ioctl.switch = some false → LastOn front

/-- `LED_1_ON` and `LED_1_OFF` take turns, `LED_1_ON` first, and each `ioremap` succeeds. -/
def TakeTurns (ioctls : List Ioctl) : Prop := AtEach Turn ioctls

/-! ## Effects -/

theorem live_append (effects : List Effect) (effect : Effect) :
    live (effects ++ [effect]) = effect.live (live effects) := by
  rw [live, List.foldl_append]
  rfl

theorem protocol_append (effects : List Effect) (effect : Effect) :
    Protocol (effects ++ [effect]) ↔
      Protocol effects ∧ effect.Valid (live effects) ∧ (effect.live (live effects)).length ≤ 1 := by
  rw [Protocol, atEach_append, live_append]
  rfl

theorem Protocol.live_le {effects : List Effect} (h : Protocol effects) :
    (live effects).length ≤ 1 := by
  induction effects using List.reverseRecOn with
  | nil => exact Nat.zero_le 1
  | append_singleton effects effect _ =>
      rw [live_append]
      exact ((protocol_append effects effect).mp h).2.2

theorem protocol_on (effects : List Effect) (value : U32) (offset size : Nat) (mapped : Addr) :
    Protocol (effects ++ [.ioremap offset size mapped] ++ [.iowrite32 value mapped]) ↔
      Protocol effects ∧ live effects = [] ∧ mapped ≠ none := by
  rw [protocol_append, protocol_append, live_append]
  cases mapped with
  | none => simp [Effect.Valid]
  | some m => simp [Effect.Valid, Effect.live]

theorem protocol_off (effects : List Effect) (value : U32) (addr : Addr) :
    Protocol (effects ++ [.iowrite32 value addr] ++ [.iounmap addr]) ↔
      Protocol effects ∧ ∃ m ∈ live effects, addr = some m := by
  rw [protocol_append, protocol_append, live_append]
  constructor
  · rintro ⟨⟨hprotocol, hvalid, -⟩, -, -⟩
    exact ⟨hprotocol, hvalid⟩
  · rintro ⟨hprotocol, m, hm, rfl⟩
    have hle := hprotocol.live_le
    refine ⟨⟨hprotocol, ⟨m, hm, rfl⟩, hle⟩, ⟨m, hm, rfl⟩, ?_⟩
    exact le_trans (List.length_erase_le) hle

/-! ## Calls -/

theorem play_append (ioctls : List Ioctl) (ioctl : Ioctl) :
    play (ioctls ++ [ioctl]) = (ledIoctl ioctl.mapped ioctl.cmd (play ioctls)).2 := by
  rw [play, List.foldl_append]
  rfl

theorem lastOn_append (ioctls : List Ioctl) (ioctl : Ioctl) :
    LastOn (ioctls ++ [ioctl]) ↔
      ioctl.switch = some true ∨ ioctl.switch = none ∧ LastOn ioctls := by
  rw [LastOn, List.filterMap_append]
  cases hswitch : ioctl.switch with
  | none => simp [LastOn, hswitch]
  | some on => simp [hswitch]

theorem ledIoctl_switch (ioctl : Ioctl) (s : State) :
    (ledIoctl ioctl.mapped ioctl.cmd s).2 =
      match ioctl.switch with
      | some true =>
          ⟨ioctl.mapped, s.effects ++ [.ioremap 0x11000c44 4 ioctl.mapped] ++
            [.iowrite32 0xff ioctl.mapped]⟩
      | some false =>
          ⟨s.gpx2data, s.effects ++ [.iowrite32 0 s.gpx2data] ++ [.iounmap s.gpx2data]⟩
      | none => s := by
  unfold ledIoctl Ioctl.switch
  by_cases hon : ioctl.cmd = led1On
  · simp only [if_pos hon]
    rfl
  · by_cases hoff : ioctl.cmd = led1Off
    · simp only [if_neg hon, if_pos hoff]
      rfl
    · simp only [if_neg hon, if_neg hoff]

/-- What the last command has left. -/
structure Holds (ioctls : List Ioctl) : Prop where
  on : LastOn ioctls →
    ∃ m, (play ioctls).gpx2data = some m ∧ live (play ioctls).effects = [m]
  off : ¬ LastOn ioctls → live (play ioctls).effects = []

theorem holds_append {ioctls : List Ioctl} {ioctl : Ioctl} (h : Holds ioctls)
    (hturn : Turn ioctls ioctl) : Holds (ioctls ++ [ioctl]) := by
  have hplay := play_append ioctls ioctl
  rw [ledIoctl_switch] at hplay
  cases hswitch : ioctl.switch with
  | none =>
      have hlast : LastOn (ioctls ++ [ioctl]) ↔ LastOn ioctls := by
        simp [lastOn_append, hswitch]
      rw [hswitch] at hplay
      constructor
      · rw [hlast, hplay]
        exact h.on
      · rw [hlast, hplay]
        exact h.off
  | some on =>
      have hlast : LastOn (ioctls ++ [ioctl]) ↔ on = true := by
        simp [lastOn_append, hswitch]
      rw [hswitch] at hplay
      cases on with
      | true =>
          obtain ⟨hnot, hmapped⟩ := hturn.on hswitch
          obtain ⟨m, hm⟩ := Option.ne_none_iff_exists'.mp hmapped
          refine ⟨fun _ => ⟨m, ?_, ?_⟩, fun hoff => absurd (hlast.mpr rfl) hoff⟩
          · rw [hplay, hm]
          · rw [hplay, live_append, live_append, h.off hnot, hm]
            rfl
      | false =>
          obtain ⟨m, hm, hlive⟩ := h.on (hturn.off hswitch)
          refine ⟨fun hon => absurd (hlast.mp hon) Bool.false_ne_true, fun _ => ?_⟩
          rw [hplay, live_append, live_append, hlive, hm]
          simp [Effect.live]

/-- In a state that the protocol allows, the next call keeps it when it is that command's turn. -/
theorem protocol_call_iff {ioctls : List Ioctl} (h : Holds ioctls)
    (hprotocol : Protocol (play ioctls).effects) (ioctl : Ioctl) :
    Protocol (play (ioctls ++ [ioctl])).effects ↔ Turn ioctls ioctl := by
  rw [play_append, ledIoctl_switch]
  cases hswitch : ioctl.switch with
  | none =>
      exact iff_of_true hprotocol ⟨fun hon => by simp [hswitch] at hon,
        fun hoff => by simp [hswitch] at hoff⟩
  | some on =>
      cases on with
      | true =>
          dsimp only
          rw [protocol_on]
          constructor
          · rintro ⟨-, hlive, hmapped⟩
            refine ⟨fun _ => ⟨fun hlast => ?_, hmapped⟩, fun hoff => by simp [hswitch] at hoff⟩
            obtain ⟨m, -, hone⟩ := h.on hlast
            rw [hlive] at hone
            cases hone
          · intro hturn
            obtain ⟨hnot, hmapped⟩ := hturn.on hswitch
            exact ⟨hprotocol, h.off hnot, hmapped⟩
      | false =>
          dsimp only
          rw [protocol_off]
          constructor
          · rintro ⟨-, m, hm, -⟩
            refine ⟨fun hon => by simp [hswitch] at hon, fun _ => ?_⟩
            by_contra hnot
            rw [h.off hnot] at hm
            exact absurd hm List.not_mem_nil
          · intro hturn
            obtain ⟨m, hm, hlive⟩ := h.on (hturn.off hswitch)
            exact ⟨hprotocol, m, hlive ▸ List.mem_singleton_self m, hm⟩

/-! ## Runs -/

theorem protocol_of_append {ioctls : List Ioctl} {ioctl : Ioctl}
    (h : Protocol (play (ioctls ++ [ioctl])).effects) : Protocol (play ioctls).effects := by
  rw [play_append, ledIoctl_switch] at h
  cases hswitch : ioctl.switch with
  | none =>
      rw [hswitch] at h
      exact h
  | some on =>
      rw [hswitch] at h
      cases on with
      | true => exact ((protocol_on _ _ _ _ _).mp h).1
      | false => exact ((protocol_off _ _ _).mp h).1

theorem holds_of_takeTurns {ioctls : List Ioctl} (h : TakeTurns ioctls) : Holds ioctls := by
  induction ioctls using List.reverseRecOn with
  | nil => exact ⟨fun hlast => (nomatch hlast), fun _ => rfl⟩
  | append_singleton ioctls ioctl ih =>
      obtain ⟨hfront, hturn⟩ := atEach_append.mp h
      exact holds_append (ih hfront) hturn

/-- The mapping is used as it should be exactly when the two commands take turns. -/
theorem mapping_protocol_iff (ioctls : List Ioctl) :
    Protocol (play ioctls).effects ↔ TakeTurns ioctls := by
  induction ioctls using List.reverseRecOn with
  | nil => exact iff_of_true .nil .nil
  | append_singleton ioctls ioctl ih =>
      constructor
      · intro h
        have hprotocol := protocol_of_append h
        have hturns := ih.mp hprotocol
        have hcall := protocol_call_iff (holds_of_takeTurns hturns) hprotocol ioctl
        exact atEach_append.mpr ⟨hturns, hcall.mp h⟩
      · intro h
        obtain ⟨hturns, hturn⟩ := atEach_append.mp h
        exact (protocol_call_iff (holds_of_takeTurns hturns) (ih.mpr hturns) ioctl).mpr hturn

/-- The menu's first choice is to switch the LED off; later, two users switch it on. -/
theorem off_goes_through_null :
    (play [⟨0, led1Off, none⟩]).effects = [.iowrite32 0 none, .iounmap none] ∧
      ¬ Protocol (play [⟨0, led1Off, none⟩]).effects ∧
      ¬ Protocol (play [⟨0, led1On, some 0⟩, ⟨1, led1On, some 1⟩]).effects := by decide

end FarsightDriver.Led.Mapping
