import FarsightDriver.Rtc.Basic

/-!
# A setting that cannot be read

`RTC_SET` does not look at what `copy_from_user` returns.  When the copy stops
early, the time that is set is made of the bytes that did arrive and of what
`tData` holds behind them: what it held before, or zeros.
-/

namespace FarsightDriver.Rtc

open FarsightDriver.Foundation

/-- What a copy that stops early leaves behind the bytes it has copied. -/
inductive Rest where
  | kept
  | zeroed
  deriving DecidableEq

def Rest.fill (tData : RTCTimeData) : Rest → RTCTimeData
  | .kept => tData
  | .zeroed => ⟨0, 0, 0, 0, 0, 0, 0⟩

/-- The ioctl `RTC_SET`, over the rest that the copy leaves. -/
def setIoctl (rest : Rest) (d : Driver) (arg : UserMemory) : Driver × Result :=
  rtcIoctl { d with tData := rest.fill d.tData } rtcSetCmd arg

def RefusedUnchanged (rest : Rest) (d : Driver) (arg : UserMemory) : Prop :=
  (setIoctl rest d arg).2.ret < 0 ∧ (setIoctl rest d arg).1.regs = d.regs

theorem exists_words {words : List U32} (h : words.length = 7) :
    ∃ value : RTCTimeData, value.words = words := by
  match words, h with
  | [year, mon, week, day, hour, min, sec], _ => exact ⟨⟨year, mon, week, day, hour, min, sec⟩, rfl⟩

theorem copyFromUser_bytes (tData : RTCTimeData) (readable : List UInt8) :
    (copyFromUser tData readable).bytes =
      readable.take sizeofTData ++ tData.bytes.drop (readable.take sizeofTData).length := by
  have hlength : (readable.take sizeofTData ++
      tData.bytes.drop (readable.take sizeofTData).length).length = 4 * 7 := by
    rw [List.length_append, List.length_drop, tData.bytes_length, List.length_take, sizeofTData]
    omega
  have hbytes := Words.toBytes_ofBytes hlength
  rw [← hbytes, Words.toBytes_length] at hlength
  obtain ⟨value, hvalue⟩ := exists_words (Nat.eq_of_mul_eq_mul_left (by decide) hlength)
  have hcopy : copyFromUser tData readable = value := by
    simp only [copyFromUser, ← hvalue]
    rfl
  rw [hcopy, RTCTimeData.bytes, hvalue, hbytes]

/--
However few bytes are read, the call returns 0 and sets the registers to the bytes
that were read, followed by the rest.
-/
theorem partial_set_never_refused (rest : Rest) (d : Driver) (arg : UserMemory)
    (h : arg.readable.length < sizeofTData) :
    (setIoctl rest d arg).2.ret = 0 ∧
      (setIoctl rest d arg).1.tData.bytes =
        arg.readable ++ (rest.fill d.tData).bytes.drop arg.readable.length ∧
      (setIoctl rest d arg).1.regs = rtcSet (setIoctl rest d arg).1.tData d.regs ∧
      ¬ RefusedUnchanged rest d arg := by
  have hne : rtcSetCmd ≠ rtcDisplay := by decide
  have hcall : setIoctl rest d arg =
      (⟨rtcSet (copyFromUser (rest.fill d.tData) arg.readable) d.regs,
        copyFromUser (rest.fill d.tData) arg.readable⟩, ⟨0, []⟩) := by
    rw [setIoctl, rtcIoctl, if_neg hne, if_pos rfl]
  have hbytes := copyFromUser_bytes (rest.fill d.tData) arg.readable
  rw [List.take_of_length_le (le_of_lt h)] at hbytes
  rw [RefusedUnchanged, hcall]
  exact ⟨rfl, hbytes, rfl, fun hrefused => absurd hrefused.1 (lt_irrefl 0)⟩

/-- The clock shows 11 in every register, and `tData` another time. -/
def staleTime : Driver := ⟨fun _ => 0x11, ⟨0x66, 0x12, 3, 3, 0, 0, 0⟩⟩

theorem unreadable_sets_stale_time :
    (setIoctl .kept staleTime ⟨[], 0⟩).2.ret = 0 ∧
      tRead (setIoctl .kept staleTime ⟨[], 0⟩).1.regs = staleTime.tData ∧
      ¬ RefusedUnchanged .kept staleTime ⟨[], 0⟩ := by
  refine ⟨rfl, by decide, fun h => ?_⟩
  exact absurd h.1 (by decide)

/-- One byte of the year is read. -/
theorem first_byte_is_set :
    (setIoctl .zeroed staleTime ⟨[0x99], 0⟩).2.ret = 0 ∧
      (setIoctl .zeroed staleTime ⟨[0x99], 0⟩).1.tData.bytes =
        [0x99] ++ (Rest.fill staleTime.tData .zeroed).bytes.drop 1 ∧
      (setIoctl .zeroed staleTime ⟨[0x99], 0⟩).1.regs =
        rtcSet (setIoctl .zeroed staleTime ⟨[0x99], 0⟩).1.tData staleTime.regs ∧
      ¬ RefusedUnchanged .zeroed staleTime ⟨[0x99], 0⟩ :=
  partial_set_never_refused .zeroed staleTime ⟨[0x99], 0⟩ (by decide)

end FarsightDriver.Rtc
