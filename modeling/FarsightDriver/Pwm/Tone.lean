import FarsightDriver.Pwm.Basic
import Mathlib.Data.List.Induction

/-!
# Tones

On each register a command is one masked update.  The initialisation and the
commands keep what timer 0 plays in step with what has been asked for; they do
not keep the bits of `TCON` that belong to the other timers, which are cleared.
-/

namespace FarsightDriver.Pwm

open FarsightDriver.Foundation

inductive Command where
  | on
  | off
  | music (k : U32)
  deriving DecidableEq, Repr

def Command.cmd : Command → U32
  | .on => pwm1On
  | .off => pwm1Off
  | .music _ => pwm1Music

def Command.arg : Command → UserMemory
  | .on | .off => []
  | .music k => Words.wordBytes k

def Command.call (driver : Ioctl) (regs : Regs) (command : Command) : Regs :=
  (driver command.cmd command.arg regs).2

/-- The initialisation, followed by the commands. -/
def play (driver : Ioctl) (regs : Regs) (commands : List Command) : Regs :=
  commands.foldl (Command.call driver) (pwmRegisterInit regs)

/-! ## The registers after a command -/

@[simp] theorem ioWr32_self (addr : Reg) (and or : U32) (regs : Regs) :
    ioWr32 addr and or regs addr = (Masked.mk and or).apply (regs addr) :=
  Function.update_self ..

@[simp] theorem ioWr32_of_ne {addr other : Reg} (h : other ≠ addr) (and or : U32) (regs : Regs) :
    ioWr32 addr and or regs other = regs other :=
  Function.update_of_ne h ..

theorem copyFromUser_wordBytes (k : U32) : copyFromUser (Words.wordBytes k) = (0, k) :=
  Prod.ext rfl (Words.ofWordBytes_wordBytes k)

/-- The update of `TCON` in `PWM_REGISTER_INIT`. -/
def tconInit : Masked 32 := ⟨~~~1, 8⟩

theorem init_tcon (regs : Regs) : pwmRegisterInit regs .tcon = tconInit.apply (regs .tcon) := by
  have hmask : (Masked.mk (~~~1) 0x2).andThen ⟨0x1 <<< 1, 0x1 <<< 3⟩ = tconInit := by decide
  rw [← hmask, Masked.apply_andThen]
  simp [pwmRegisterInit]

theorem init_tcntb0 (regs : Regs) : pwmRegisterInit regs .tcntb0 = 1000 :=
  Masked.apply_assign 1000 (regs .tcntb0)

theorem init_tcmpb0 (regs : Regs) : pwmRegisterInit regs .tcmpb0 = 500 :=
  Masked.apply_assign 500 (regs .tcmpb0)

/-- The note that a command plays; the tune 0 is a rest. -/
def Command.note : Command → Option U32
  | .on | .off => none
  | .music k => if k = 0 then none else some k

def Command.Starts : Command → Prop
  | .on => True
  | .off => False
  | .music k => k ≠ 0

instance (command : Command) : Decidable command.Starts := by
  cases command <;> unfold Command.Starts <;> infer_instance

/-- The update of `TCON` in a command. -/
def Command.tcon (command : Command) : Masked 32 :=
  match command.note with
  | some _ => ⟨~~~0, 9⟩
  | none => ⟨1, if command.Starts then 1 else 0⟩

theorem call_note (unknown : Int) (regs : Regs) {k : U32} (h : k ≠ 0) :
    (Command.music k).call (ioctl unknown) regs =
      ioWr32 .tcon 1 1 (ioWr32 .tcon (1 <<< 1) (1 <<< 3) (ioWr32 .tcon (~~~1) (0x3 <<< 0)
        (ioWr32 .tcmpb0 (~~~0) (k / 2) (ioWr32 .tcntb0 (~~~0) k regs)))) := by
  have hon : pwm1Music ≠ pwm1On := by decide
  have hoff : pwm1Music ≠ pwm1Off := by decide
  rw [Command.call, Command.cmd, Command.arg, ioctl, if_neg hon, if_neg hoff, if_pos rfl,
    copyFromUser_wordBytes]
  exact congrArg Prod.snd (if_neg h)

theorem call_tcon (unknown : Int) (regs : Regs) (command : Command) :
    command.call (ioctl unknown) regs .tcon = command.tcon.apply (regs .tcon) := by
  cases command with
  | on => exact ioWr32_self .tcon 1 1 regs
  | off => exact ioWr32_self .tcon 1 0 regs
  | music k =>
      by_cases hk : k = 0
      · subst hk
        exact ioWr32_self .tcon 1 0 regs
      · have hmask : ((Masked.mk (~~~1) (0x3 <<< 0)).andThen ⟨1 <<< 1, 1 <<< 3⟩).andThen ⟨1, 1⟩ =
            (⟨~~~0, 9⟩ : Masked 32) := by decide
        simp only [Command.tcon, Command.note, if_neg hk]
        rw [call_note unknown regs hk, ← hmask, Masked.apply_andThen, Masked.apply_andThen]
        simp

theorem call_tcntb0 (unknown : Int) (regs : Regs) (command : Command) :
    command.call (ioctl unknown) regs .tcntb0 = command.note.getD (regs .tcntb0) := by
  cases command with
  | on => rfl
  | off => rfl
  | music k =>
      by_cases hk : k = 0
      · subst hk
        rfl
      · rw [call_note unknown regs hk, Command.note, if_neg hk]
        exact Masked.apply_assign k (regs .tcntb0)

theorem call_tcmpb0 (unknown : Int) (regs : Regs) (command : Command) :
    command.call (ioctl unknown) regs .tcmpb0 = (command.note.map (· / 2)).getD (regs .tcmpb0) := by
  cases command with
  | on => rfl
  | off => rfl
  | music k =>
      by_cases hk : k = 0
      · subst hk
        rfl
      · rw [call_note unknown regs hk, Command.note, if_neg hk]
        exact Masked.apply_assign (k / 2) (regs .tcmpb0)

theorem play_append (driver : Ioctl) (regs : Regs) (commands : List Command)
    (command : Command) :
    play driver regs (commands ++ [command]) =
      command.call driver (play driver regs commands) := by
  rw [play, List.foldl_append]
  rfl

/-! ## The tone -/

def lastNote (commands : List Command) : U32 :=
  (commands.filterMap Command.note).getLast?.getD 1000

structure Tone (commands : List Command) (regs : Regs) : Prop where
  manualUpdate : (regs .tcon).getLsbD 1 = false
  autoReload : (regs .tcon).getLsbD 3 = true
  period : regs .tcntb0 = lastNote commands
  half : (regs .tcmpb0).toNat = (regs .tcntb0).toNat / 2
  start : ∀ last ∈ commands.getLast?, ((regs .tcon).getLsbD 0 = true ↔ last.Starts)

theorem lastNote_append (commands : List Command) (command : Command) :
    lastNote (commands ++ [command]) = command.note.getD (lastNote commands) := by
  rw [lastNote, lastNote, List.filterMap_append]
  cases hnote : command.note <;> simp [hnote]

theorem tone_init (regs : Regs) : Tone [] (pwmRegisterInit regs) where
  manualUpdate := by
    rw [init_tcon]
    exact Masked.getLsbD_of_cleared (by decide) (by decide) _
  autoReload := by
    rw [init_tcon]
    exact Masked.getLsbD_of_set (by decide) _
  period := init_tcntb0 regs
  half := by
    rw [init_tcntb0, init_tcmpb0]
    rfl
  start := by simp

/-- No command sets bit 1, and one that clears bit 3 sets it again. -/
theorem tcon_bits (command : Command) :
    command.tcon.set.getLsbD 1 = false ∧
      (command.tcon.set.getLsbD 3 = true ∨
        command.tcon.clear.getLsbD 3 = false ∧ command.tcon.set.getLsbD 3 = false) ∧
      command.tcon.clear.getLsbD 0 = true ∧
      (command.tcon.set.getLsbD 0 = true ↔ command.Starts) := by
  cases command with
  | on => simp [Command.tcon, Command.note, Command.Starts]
  | off => simp [Command.tcon, Command.note, Command.Starts]
  | music k =>
      by_cases hk : k = 0
      · simp [Command.tcon, Command.note, Command.Starts, hk]
      · simp only [Command.tcon, Command.note, if_neg hk, Command.Starts]
        exact ⟨by decide, .inl (by decide), by decide, iff_of_true (by decide) hk⟩

theorem tone_call (unknown : Int) {commands : List Command} {regs : Regs} (h : Tone commands regs)
    (command : Command) : Tone (commands ++ [command]) (command.call (ioctl unknown) regs) := by
  obtain ⟨hmanual, hreload, hclear, hstart⟩ := tcon_bits command
  refine ⟨?_, ?_, ?_, ?_, fun last hlast => ?_⟩
  · rw [call_tcon]
    exact Masked.getLsbD_of_unset hmanual h.manualUpdate
  · rw [call_tcon]
    rcases hreload with hset | ⟨hspared, hunset⟩
    · exact Masked.getLsbD_of_set hset _
    · rw [Masked.getLsbD_of_spared hspared hunset]
      exact h.autoReload
  · rw [call_tcntb0, lastNote_append, h.period]
  · rw [call_tcntb0, call_tcmpb0]
    cases hnote : command.note with
    | none => exact h.half
    | some k => exact BitVec.toNat_udiv
  · rw [List.getLast?_append, List.getLast?_singleton, Option.some_or] at hlast
    cases hlast
    rw [call_tcon, ← hstart, Masked.getLsbD_apply, hclear, Bool.not_true, Bool.and_false,
      Bool.false_or]

theorem tone_play (unknown : Int) (regs : Regs) (commands : List Command) :
    Tone commands (play (ioctl unknown) regs commands) := by
  induction commands using List.reverseRecOn with
  | nil => exact tone_init regs
  | append_singleton commands command ih =>
      rw [play_append]
      exact tone_call unknown ih command

/-- Whatever the registers held, every command leaves the tone that has been asked for. -/
theorem tone_after_every_command (regs : Regs) (commands : List Command) :
    Tone commands (play pwmIoctl regs commands) ∧
      Tone commands (play myunlockedIoctl regs commands) :=
  ⟨tone_play 0 regs commands, tone_play (-einval) regs commands⟩

/-! ## The other timers -/

/-- The bits of `TCON` above those of timer 0. -/
def OtherTimer (i : Nat) : Prop := 5 ≤ i ∧ i < 32

theorem init_other {i : Nat} (h : OtherTimer i) (regs : Regs) :
    (pwmRegisterInit regs .tcon).getLsbD i = false := by
  have hone : (1 : U32).getLsbD i = false := Masked.getLsbD_of_toNat_lt (by decide) h.1
  have hset : tconInit.set.getLsbD i = false := Masked.getLsbD_of_toNat_lt (by decide) h.1
  have hclear : tconInit.clear.getLsbD i = true := by
    rw [tconInit, BitVec.getLsbD_not, hone, decide_eq_true h.2]
    rfl
  rw [init_tcon]
  exact Masked.getLsbD_of_cleared hclear hset _

theorem tcon_set_other {i : Nat} (h : OtherTimer i) (command : Command) :
    command.tcon.set.getLsbD i = false := by
  have hset : command.tcon.set.toNat < 2 ^ 5 := by
    unfold Command.tcon
    split
    · decide
    · dsimp only
      split <;> decide
  exact Masked.getLsbD_of_toNat_lt hset h.1

/-- The initialisation clears the bits of the other timers, and nothing sets them again. -/
theorem play_other {i : Nat} (h : OtherTimer i) (unknown : Int) (regs : Regs)
    (commands : List Command) : (play (ioctl unknown) regs commands .tcon).getLsbD i = false := by
  induction commands using List.reverseRecOn with
  | nil => exact init_other h regs
  | append_singleton commands command ih =>
      rw [play_append, call_tcon]
      exact Masked.getLsbD_of_unset (tcon_set_other h command) ih

/-- The bits of the other timers are what they were. -/
def OthersKept (driver : Ioctl) (regs : Regs) (commands : List Command) : Prop :=
  ∀ i, OtherTimer i → (play driver regs commands .tcon).getLsbD i = (regs .tcon).getLsbD i

theorem othersKept_iff (unknown : Int) (regs : Regs) (commands : List Command) :
    OthersKept (ioctl unknown) regs commands ↔
      ∀ i, OtherTimer i → (regs .tcon).getLsbD i = false := by
  refine forall₂_congr fun i hi => ?_
  rw [play_other hi]
  exact eq_comm

/-- The other timers are left alone when none of their bits was set to begin with. -/
theorem other_timers_kept_iff (regs : Regs) (commands : List Command) :
    (OthersKept pwmIoctl regs commands ↔ ∀ i, OtherTimer i → (regs .tcon).getLsbD i = false) ∧
      (OthersKept myunlockedIoctl regs commands ↔
        ∀ i, OtherTimer i → (regs .tcon).getLsbD i = false) :=
  ⟨othersKept_iff 0 regs commands, othersKept_iff (-einval) regs commands⟩

def timerOneRuns : Regs := fun addr => if addr = .tcon then 0x100 else 0

theorem init_stops_timer_one :
    play pwmIoctl timerOneRuns [] .tcon = 8 ∧ ¬ OthersKept pwmIoctl timerOneRuns [] := by
  have hstopped : play pwmIoctl timerOneRuns [] .tcon = 8 := by decide
  refine ⟨hstopped, fun h => ?_⟩
  have height := h 8 ⟨by decide, by decide⟩
  rw [hstopped] at height
  exact absurd height (by decide)

end FarsightDriver.Pwm
