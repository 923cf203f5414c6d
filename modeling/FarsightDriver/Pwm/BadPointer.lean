import FarsightDriver.Pwm.Tone

/-!
# A tune that cannot be read

The driver stores what `copy_from_user` returns and does not look at it.  A call
with a bad pointer is therefore a call with the tune whose bytes did arrive, the
others being 0, and it returns 0 as every known command does.
-/

namespace FarsightDriver.Pwm

/-- The call is refused and the registers of the timer are left as they were. -/
def RefusedUnchanged (arg : UserMemory) (regs : Regs) : Prop :=
  (myunlockedIoctl pwm1Music arg regs).1 < 0 ∧
    ∀ addr ∈ [Reg.tcon, .tcntb0, .tcmpb0],
      (myunlockedIoctl pwm1Music arg regs).2 addr = regs addr

/-- What a call does depends on the bytes that are read, not on their number. -/
theorem ioctl_music (unknown : Int) (arg : UserMemory) (regs : Regs) :
    ioctl unknown pwm1Music arg regs =
      (0, (Command.music (copyFromUser arg).2).call (ioctl unknown) regs) := by
  have hon : pwm1Music ≠ pwm1On := by decide
  have hoff : pwm1Music ≠ pwm1Off := by decide
  rw [Command.call, Command.cmd, Command.arg, ioctl, ioctl, if_neg hon, if_neg hoff, if_pos rfl,
    if_neg hon, if_neg hoff, if_pos rfl, copyFromUser_wordBytes]
  by_cases hk : (copyFromUser arg).2 = 0
  · simp only [if_pos hk]
  · simp only [if_neg hk]

/-- With a tune that is not read to its end, the call plays what it has and reports success. -/
theorem bad_pointer_never_refused (arg : UserMemory) (regs : Regs) (h : arg.length < 4) :
    0 < (copyFromUser arg).1 ∧
      myunlockedIoctl pwm1Music arg regs =
        (0, (Command.music (copyFromUser arg).2).call myunlockedIoctl regs) ∧
      ¬ RefusedUnchanged arg regs := by
  have hcall : myunlockedIoctl pwm1Music arg regs =
      (0, (Command.music (copyFromUser arg).2).call myunlockedIoctl regs) := ioctl_music _ _ _
  refine ⟨Nat.sub_pos_of_lt h, hcall, fun hrefused => ?_⟩
  rw [RefusedUnchanged, hcall] at hrefused
  exact absurd hrefused.1 (lt_irrefl 0)

/-- One byte of the tune 1912 arrives. -/
def firstByte : UserMemory := [0x78]

theorem first_byte_is_played :
    copyFromUser firstByte = (3, 0x78) ∧
      (myunlockedIoctl pwm1Music firstByte fun _ => 0).1 = 0 ∧
      (myunlockedIoctl pwm1Music firstByte fun _ => 0).2 .tcntb0 = 0x78 ∧
      ¬ RefusedUnchanged firstByte fun _ => 0 := by
  have hcall := ioctl_music (-einval) firstByte fun _ => 0
  refine ⟨rfl, congrArg Prod.fst hcall, ?_, fun hrefused => ?_⟩
  · rw [myunlockedIoctl, hcall]
    exact (call_tcntb0 (-einval) (fun _ => 0) (.music 0x78)).trans rfl
  · rw [RefusedUnchanged, myunlockedIoctl, hcall] at hrefused
    exact absurd hrefused.1 (lt_irrefl 0)

theorem no_byte_is_a_rest :
    0 < (copyFromUser []).1 ∧
      myunlockedIoctl pwm1Music [] timerOneRuns =
        (0, (Command.music (copyFromUser []).2).call myunlockedIoctl timerOneRuns) ∧
      ¬ RefusedUnchanged [] timerOneRuns :=
  bad_pointer_never_refused [] timerOneRuns (by decide)

end FarsightDriver.Pwm
