import FarsightDriver.Foundation.Words
import Mathlib.Logic.Function.Basic

/-!
# The RTC driver

The clock is read and set through seven registers that hold one BCD field each.
`tRead` and `RTC_set` move all of them between the registers and the one global
structure `tData`, which every `ioctl` fills or hands out.

A register keeps what is written to it; the clock's own progress is not a step
of the driver.  User memory is seen through the kernel's copy functions: as the
bytes that can be read at the argument, and how many can be written there.
-/

namespace FarsightDriver.Rtc

open FarsightDriver.Foundation

structure RTCTimeData where
  bcdYear : U32
  bcdMon : U32
  bcdWeek : U32
  bcdDay : U32
  bcdHour : U32
  bcdMin : U32
  bcdSec : U32
  deriving DecidableEq, Repr

/-- `RTCCON` at 0x10070040 and the seven words from 0x10070070 on. -/
inductive Reg where
  | rtccon
  | bcdTime (index : Fin 7)
  deriving DecidableEq, Repr

abbrev Regs := Reg → U32

def ioWr32 (addr : Reg) (and or : U32) (regs : Regs) : Regs :=
  let data := regs addr
  let data := data &&& ~~~and ||| or
  Function.update regs addr data

def tRead (regs : Regs) : RTCTimeData where
  bcdSec := regs (.bcdTime 0)
  bcdMin := regs (.bcdTime 1)
  bcdHour := regs (.bcdTime 2)
  bcdWeek := regs (.bcdTime 4)
  bcdDay := regs (.bcdTime 3)
  bcdMon := regs (.bcdTime 5)
  bcdYear := regs (.bcdTime 6)

/-- The fields of the time, in the registers that `tRead` takes them from. -/
inductive Field where
  | sec
  | min
  | hour
  | day
  | week
  | mon
  | year
  deriving DecidableEq, Repr

def Field.reg : Field → Reg
  | .sec => .bcdTime 0
  | .min => .bcdTime 1
  | .hour => .bcdTime 2
  | .day => .bcdTime 3
  | .week => .bcdTime 4
  | .mon => .bcdTime 5
  | .year => .bcdTime 6

def Reg.field : Reg → Option Field
  | .rtccon => none
  | .bcdTime 0 => some .sec
  | .bcdTime 1 => some .min
  | .bcdTime 2 => some .hour
  | .bcdTime 3 => some .day
  | .bcdTime 4 => some .week
  | .bcdTime 5 => some .mon
  | .bcdTime 6 => some .year

@[simp] theorem field_reg (field : Field) : field.reg.field = some field := by
  cases field <;> rfl

def rtcOpen (regs : Regs) : Regs :=
  let regs := ioWr32 .rtccon 1 1 regs
  let regs := ioWr32 (.bcdTime 0) (~~~0) 0x00 regs
  let regs := ioWr32 (.bcdTime 1) (~~~0) 0x11 regs
  let regs := ioWr32 (.bcdTime 2) (~~~0) 0x19 regs
  let regs := ioWr32 (.bcdTime 4) (~~~0) 0x3 regs
  let regs := ioWr32 (.bcdTime 3) (~~~0) 0x12 regs
  let regs := ioWr32 (.bcdTime 5) (~~~0) 0x05 regs
  let regs := ioWr32 (.bcdTime 6) (~~~0) 0x16 regs
  ioWr32 .rtccon 1 0 regs

def rtcSet (tData : RTCTimeData) (regs : Regs) : Regs :=
  let regs := ioWr32 .rtccon 1 1 regs
  let regs := ioWr32 (.bcdTime 0) (~~~0) tData.bcdSec regs
  let regs := ioWr32 (.bcdTime 1) (~~~0) tData.bcdMin regs
  let regs := ioWr32 (.bcdTime 2) (~~~0) tData.bcdHour regs
  let regs := ioWr32 (.bcdTime 4) (~~~0) tData.bcdDay regs
  let regs := ioWr32 (.bcdTime 3) (~~~0) tData.bcdWeek regs
  let regs := ioWr32 (.bcdTime 5) (~~~0) tData.bcdMon regs
  let regs := ioWr32 (.bcdTime 6) (~~~0) tData.bcdYear regs
  ioWr32 .rtccon 1 0 regs

/-! ## Copies of the structure -/

def RTCTimeData.words (data : RTCTimeData) : List U32 :=
  [data.bcdYear, data.bcdMon, data.bcdWeek, data.bcdDay, data.bcdHour, data.bcdMin, data.bcdSec]

def RTCTimeData.bytes (data : RTCTimeData) : List UInt8 := Words.toBytes data.words

def sizeofTData : Nat := 28

/-- `tData` after a copy that may stop early. -/
def copyFromUser (tData : RTCTimeData) (readable : List UInt8) : RTCTimeData :=
  let copied := readable.take sizeofTData
  match Words.ofBytes (copied ++ tData.bytes.drop copied.length) with
  | [year, mon, week, day, hour, min, sec] => ⟨year, mon, week, day, hour, min, sec⟩
  | _ => tData

/-- The bytes that reach the user. -/
def copyToUser (room : Nat) (tData : RTCTimeData) : List UInt8 := tData.bytes.take room

/-! ## The file operations -/

/-- `_IOC` of the generic encoding, for the magic 'R' and an `int`. -/
def ioc (dir nr : U32) : U32 := dir <<< 30 ||| 4 <<< 16 ||| 0x52 <<< 8 ||| nr

def rtcDisplay : U32 := ioc 2 0

def rtcSetCmd : U32 := ioc 1 1

def rtcUndis : U32 := ioc 2 2

def einval : Int := 22

structure Driver where
  regs : Regs
  tData : RTCTimeData

structure UserMemory where
  readable : List UInt8
  room : Nat

/-- What a call returns, and what it writes to the user. -/
structure Result where
  ret : Int
  copied : List UInt8
  deriving DecidableEq, Repr

def rtcIoctl (d : Driver) (cmd : U32) (arg : UserMemory) : Driver × Result :=
  if cmd = rtcDisplay then
    let tData := tRead d.regs
    ({ d with tData := tData }, ⟨0, copyToUser arg.room tData⟩)
  else if cmd = rtcSetCmd then
    let tData := copyFromUser d.tData arg.readable
    (⟨rtcSet tData d.regs, tData⟩, ⟨0, []⟩)
  else if cmd = rtcUndis then (d, ⟨0, []⟩)
  else (d, ⟨-einval, []⟩)

inductive Call where
  | rtcOpen
  | rtcRead
  | rtcWrite
  | rtcIoctl (cmd : U32) (arg : UserMemory)
  | rtcClose

def Driver.call (d : Driver) : Call → Driver × Result
  | .rtcOpen => ({ d with regs := Rtc.rtcOpen d.regs }, ⟨0, []⟩)
  | .rtcRead | .rtcWrite | .rtcClose => (d, ⟨0, []⟩)
  | .rtcIoctl cmd arg => Rtc.rtcIoctl d cmd arg

def Driver.calls (d : Driver) (calls : List Call) : Driver :=
  calls.foldl (fun d call => (d.call call).1) d

/-! ## Lemmas of the two tables -/

theorem RTCTimeData.bytes_length (data : RTCTimeData) : data.bytes.length = sizeofTData :=
  Words.toBytes_length _

theorem RTCTimeData.bytes_injective {data data' : RTCTimeData} (h : data.bytes = data'.bytes) :
    data = data' := by
  have hwords := Words.toBytes_injective h
  obtain ⟨year, mon, week, day, hour, min, sec⟩ := data
  simp only [RTCTimeData.words, List.cons.injEq] at hwords
  obtain ⟨rfl, rfl, rfl, rfl, rfl, rfl, rfl, -⟩ := hwords
  rfl

theorem copyFromUser_eq (tData : RTCTimeData) {value : RTCTimeData} {readable : List UInt8}
    (h : value.bytes <+: readable) : copyFromUser tData readable = value := by
  have htake : readable.take sizeofTData = value.bytes := by
    rw [← value.bytes_length]
    exact (List.prefix_iff_eq_take.mp h).symm
  have hdrop : tData.bytes.drop value.bytes.length = [] := by
    rw [value.bytes_length, ← tData.bytes_length, List.drop_length]
  have hwords : Words.ofBytes (value.bytes ++ tData.bytes.drop value.bytes.length) =
      value.words := by
    rw [hdrop, List.append_nil]
    exact Words.ofBytes_toBytes _
  simp only [copyFromUser, htake, hwords]
  rfl

theorem ioWr32_all (addr : Reg) (value : U32) (regs : Regs) :
    ioWr32 addr (~~~0) value regs = Function.update regs addr value := by
  simp [ioWr32]

/-- The week goes into the register that `tRead` takes the day from, and the day into the other. -/
theorem tRead_rtcSet (tData : RTCTimeData) (regs : Regs) :
    tRead (rtcSet tData regs) =
      { tData with bcdWeek := tData.bcdDay, bcdDay := tData.bcdWeek } := by
  simp only [rtcSet, ioWr32_all, tRead]
  simp [ioWr32, Function.update]

end FarsightDriver.Rtc
