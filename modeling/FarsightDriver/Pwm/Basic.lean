import FarsightDriver.Foundation.Masked
import FarsightDriver.Foundation.Words
import Mathlib.Logic.Function.Basic

/-!
# The PWM driver

Timer 0 plays a tone: `TCNTB0` holds its period, `TCMPB0` half of it, and `TCON`
starts, stops and reloads this timer and four others.  All registers are changed
by `io_wr32`.  Two versions of the driver, a plain module and a platform driver,
differ in what they return for an unknown command.

A register keeps what is written to it.
-/

namespace FarsightDriver.Pwm

open FarsightDriver.Foundation

/-- `GPD0CON` at 0x114000A0 and the five words from 0x139D0000 on. -/
inductive Reg where
  | gpd0con
  | tcfg0
  | tcfg1
  | tcon
  | tcntb0
  | tcmpb0
  deriving DecidableEq, Repr

abbrev Regs := Reg → U32

def ioWr32 (addr : Reg) (and or : U32) (regs : Regs) : Regs :=
  let data := regs addr
  let data := data &&& ~~~and ||| or
  Function.update regs addr data

def pwmRegisterInit (regs : Regs) : Regs :=
  let regs := ioWr32 .gpd0con 0xf 0x2 regs
  let regs := ioWr32 .tcfg0 0xff 99 regs
  let regs := ioWr32 .tcfg1 0xF 0 regs
  let regs := ioWr32 .tcntb0 (~~~0) 1000 regs
  let regs := ioWr32 .tcmpb0 (~~~0) 500 regs
  let regs := ioWr32 .tcon (~~~1) 0x2 regs
  ioWr32 .tcon (0x1 <<< 1) (0x1 <<< 3) regs

/-! ## The commands -/

/-- `_IOR('l', nr, int)`. -/
def ior (nr : U32) : U32 := 2 <<< 30 ||| 4 <<< 16 ||| 0x6c <<< 8 ||| nr

def pwm1On : U32 := ior 1

def pwm1Off : U32 := ior 2

def pwm1Music : U32 := ior 3

def einval : Int := 22

/-- The bytes that can be read at the argument. -/
abbrev UserMemory := List UInt8

/-- `k`, and the number of bytes that are not copied; these are 0 in `k`. -/
def copyFromUser (readable : UserMemory) : Nat × U32 :=
  let byte i := readable.getD i 0
  (4 - readable.length, Words.ofWordBytes (byte 0) (byte 1) (byte 2) (byte 3))

abbrev Ioctl := U32 → UserMemory → Regs → Int × Regs

/-- The two versions of the `ioctl`, by what they return for an unknown command. -/
def ioctl (unknown : Int) : Ioctl := fun cmd arg regs =>
  if cmd = pwm1On then (0, ioWr32 .tcon 1 1 regs)
  else if cmd = pwm1Off then (0, ioWr32 .tcon 1 0 regs)
  else if cmd = pwm1Music then
    let (_, k) := copyFromUser arg
    if k = 0 then (0, ioWr32 .tcon 1 0 regs)
    else
      let regs := ioWr32 .tcntb0 (~~~0) k regs
      let regs := ioWr32 .tcmpb0 (~~~0) (k / 2) regs
      let regs := ioWr32 .tcon (~~~1) (0x3 <<< 0) regs
      let regs := ioWr32 .tcon (1 <<< 1) (1 <<< 3) regs
      (0, ioWr32 .tcon 1 1 regs)
  else (unknown, regs)

/-- The `ioctl` of `03_music_standard`. -/
def pwmIoctl : Ioctl := ioctl 0

/-- The `ioctl` of the platform drivers. -/
def myunlockedIoctl : Ioctl := ioctl (-einval)

end FarsightDriver.Pwm
