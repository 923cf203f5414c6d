import FarsightDriver.Rtc.Basic

/-!
# Setting and displaying the time

`RTC_set` writes the day of the month into the register of the day of the week
and the other way round, which neither `tRead` nor `RTC_open` does.  A time
comes back as it was set when its two fields agree.
-/

namespace FarsightDriver.Rtc

open FarsightDriver.Foundation

/-- The calls between a setting and a display: neither an open nor another setting. -/
def Call.Quiet : Call → Prop
  | .rtcOpen => False
  | .rtcIoctl cmd _ => cmd ≠ rtcSetCmd
  | _ => True

def RTCTimeData.swapped (value : RTCTimeData) : RTCTimeData :=
  { value with bcdWeek := value.bcdDay, bcdDay := value.bcdWeek }

theorem swapped_eq_iff (value : RTCTimeData) :
    value.swapped = value ↔ value.bcdDay = value.bcdWeek := by
  obtain ⟨year, mon, week, day, hour, min, sec⟩ := value
  simp only [RTCTimeData.swapped, RTCTimeData.mk.injEq, true_and, and_true]
  exact ⟨fun h => h.1, fun h => ⟨h, h.symm⟩⟩

theorem call_quiet (d : Driver) {call : Call} (h : call.Quiet) :
    (d.call call).1.regs = d.regs := by
  cases call with
  | rtcOpen => contradiction
  | rtcRead => rfl
  | rtcWrite => rfl
  | rtcClose => rfl
  | rtcIoctl cmd arg =>
      simp only [Driver.call, rtcIoctl, if_neg h]
      split
      · rfl
      · split <;> rfl

theorem calls_quiet (d : Driver) {calls : List Call} (h : ∀ call ∈ calls, call.Quiet) :
    (d.calls calls).regs = d.regs := by
  induction calls generalizing d with
  | nil => rfl
  | cons call calls ih =>
      have hcall := call_quiet d (h call List.mem_cons_self)
      have hcalls := ih (d.call call).1 fun other hmem => h other (List.mem_cons_of_mem _ hmem)
      exact hcalls.trans hcall

theorem call_display (d : Driver) (arg : UserMemory) :
    (d.call (.rtcIoctl rtcDisplay arg)).2 = ⟨0, copyToUser arg.room (tRead d.regs)⟩ := by
  simp only [Driver.call, rtcIoctl, if_true]

theorem call_set (d : Driver) {value : RTCTimeData} {arg : UserMemory}
    (h : value.bytes <+: arg.readable) :
    (d.call (.rtcIoctl rtcSetCmd arg)).1.regs = rtcSet value d.regs := by
  have hne : rtcSetCmd ≠ rtcDisplay := by decide
  simp only [Driver.call, rtcIoctl, if_neg hne, if_true, copyFromUser_eq d.tData h]

/-- Every display after a setting shows the value with day and week exchanged. -/
theorem display_after_set (d : Driver) {value : RTCTimeData} {arg : UserMemory}
    (harg : value.bytes <+: arg.readable) {calls : List Call}
    (hquiet : ∀ call ∈ calls, call.Quiet) (display : UserMemory)
    (hroom : sizeofTData ≤ display.room) :
    (((d.call (.rtcIoctl rtcSetCmd arg)).1.calls calls).call (.rtcIoctl rtcDisplay display)).2 =
      ⟨0, value.swapped.bytes⟩ := by
  rw [call_display, calls_quiet _ hquiet, call_set d harg, tRead_rtcSet, copyToUser,
    List.take_of_length_le (by rw [RTCTimeData.bytes_length]; exact hroom)]
  rfl

theorem set_then_display_iff (d : Driver) (value : RTCTimeData) (arg : UserMemory)
    (harg : value.bytes <+: arg.readable) (calls : List Call)
    (hquiet : ∀ call ∈ calls, call.Quiet) (display : UserMemory)
    (hroom : sizeofTData ≤ display.room) :
    (((d.call (.rtcIoctl rtcSetCmd arg)).1.calls calls).call (.rtcIoctl rtcDisplay display)).2 =
      ⟨0, value.bytes⟩ ↔ value.bcdDay = value.bcdWeek := by
  rw [display_after_set d harg hquiet display hroom, ← swapped_eq_iff, Result.mk.injEq]
  constructor
  · rintro ⟨-, hbytes⟩
    exact RTCTimeData.bytes_injective hbytes
  · intro hsame
    rw [hsame]
    exact ⟨rfl, rfl⟩

/-- The values that the test program sets: Monday, the 21st of December '66. -/
def appTime : RTCTimeData := ⟨0x66, 0x12, 0x1, 0x21, 0x20, 0x45, 0x51⟩

def blank : Driver := ⟨fun _ => 0, ⟨0, 0, 0, 0, 0, 0, 0⟩⟩

theorem app_time_not_displayed :
    ((blank.call (.rtcIoctl rtcSetCmd ⟨appTime.bytes, 28⟩)).1.call
        (.rtcIoctl rtcDisplay ⟨[], 28⟩)).2 =
      ⟨0, { appTime with bcdWeek := 0x21, bcdDay := 0x1 }.bytes⟩ ∧
    ((blank.call (.rtcIoctl rtcSetCmd ⟨appTime.bytes, 28⟩)).1.call
        (.rtcIoctl rtcDisplay ⟨[], 28⟩)).2 ≠ ⟨0, appTime.bytes⟩ := by
  decide

/-- The third of the month, a Wednesday. -/
def thirdWednesday : RTCTimeData := ⟨0x66, 0x12, 3, 3, 0, 0, 0⟩

/-- The time comes back in a second display as well. -/
theorem equal_fields_displayed :
    (((blank.call (.rtcIoctl rtcSetCmd ⟨thirdWednesday.bytes, 28⟩)).1.calls
        [.rtcIoctl rtcDisplay ⟨[], 28⟩]).call (.rtcIoctl rtcDisplay ⟨[], 28⟩)).2 =
      ⟨0, thirdWednesday.bytes⟩ :=
  (set_then_display_iff blank thirdWednesday ⟨_, 28⟩ (List.prefix_refl _)
    [.rtcIoctl rtcDisplay ⟨[], 28⟩] (by
      intro call hmem
      rw [List.mem_singleton.mp hmem]
      exact (by decide : rtcDisplay ≠ rtcSetCmd)) ⟨[], 28⟩ (le_refl 28)).mpr rfl

end FarsightDriver.Rtc
