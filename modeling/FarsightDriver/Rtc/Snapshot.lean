import FarsightDriver.Rtc.Basic
import Mathlib.Logic.Function.Iterate
import Mathlib.Order.Monotone.Defs

/-!
# Reading a clock that runs

The clock goes on while `tRead` goes through the seven registers, the seconds
first.  When they roll over in between, a register that the carry reaches before
it is read comes from another minute than the seconds do.
-/

namespace FarsightDriver.Rtc

open FarsightDriver.Foundation

/-! ## The clock -/

def bcd (n : Nat) : U32 := BitVec.ofNat 32 (n / 10 * 16 + n % 10)

def ofBcd (value : U32) : Nat := value.toNat / 16 * 10 + value.toNat % 16

def bcdSucc (value : U32) : U32 := if value &&& 0xf = 9 then value + 7 else value + 1

/-- The next value of a register that goes from `first` to `last`. -/
def roll (first last value : U32) : U32 := if value = last then first else bcdSucc value

def lastDay (regs : Regs) : U32 :=
  let mon := regs Field.mon.reg
  if mon = 0x02 then if ofBcd (regs Field.year.reg) % 4 = 0 then 0x29 else 0x28
  else if mon = 0x04 ∨ mon = 0x06 ∨ mon = 0x09 ∨ mon = 0x11 then 0x30
  else 0x31

def nextValue (regs : Regs) (field : Field) : U32 :=
  let value := regs field.reg
  match field with
  | .sec | .min => roll 0x00 0x59 value
  | .hour => roll 0x00 0x23 value
  | .day => roll 0x01 (lastDay regs) value
  | .week => roll 0x1 0x7 value
  | .mon => roll 0x01 0x12 value
  | .year => roll 0x00 0x99 value

def EndOfHour (regs : Regs) : Prop := regs Field.min.reg = 0x59

def EndOfDay (regs : Regs) : Prop := EndOfHour regs ∧ regs Field.hour.reg = 0x23

def EndOfMonth (regs : Regs) : Prop := EndOfDay regs ∧ regs Field.day.reg = lastDay regs

def EndOfYear (regs : Regs) : Prop := EndOfMonth regs ∧ regs Field.mon.reg = 0x12

/-- The carry out of the seconds gets as far as the field. -/
def CarriesInto (regs : Regs) : Field → Prop
  | .sec | .min => True
  | .hour => EndOfHour regs
  | .day | .week => EndOfDay regs
  | .mon => EndOfMonth regs
  | .year => EndOfYear regs

instance (regs : Regs) (field : Field) : Decidable (CarriesInto regs field) := by
  unfold CarriesInto EndOfYear EndOfMonth EndOfDay EndOfHour
  split <;> infer_instance

/-- A second goes by. -/
def tick (regs : Regs) : Regs := fun addr =>
  match addr.field with
  | none => regs addr
  | some field =>
      if field = .sec ∨ regs Field.sec.reg = 0x59 ∧ CarriesInto regs field then
        nextValue regs field
      else regs addr

/-! ## The reads -/

/-- `tRead`, when the registers are `regsAt j` at its read number `j`. -/
def tReadAt (regsAt : Nat → Regs) : RTCTimeData where
  bcdSec := regsAt 0 Field.sec.reg
  bcdMin := regsAt 1 Field.min.reg
  bcdHour := regsAt 2 Field.hour.reg
  bcdWeek := regsAt 3 Field.week.reg
  bcdDay := regsAt 4 Field.day.reg
  bcdMon := regsAt 5 Field.mon.reg
  bcdYear := regsAt 6 Field.year.reg

theorem tReadAt_const (regs : Regs) : tReadAt (fun _ => regs) = tRead regs := rfl

/-- The reads after the first, and the fields that they read. -/
def laterReads : List (Nat × Field) :=
  [(1, .min), (2, .hour), (3, .week), (4, .day), (5, .mon), (6, .year)]

/-- The number of ticks that have gone by at each read. -/
structure Placement where
  elapsed : Nat → Nat
  mono : Monotone elapsed
  first : elapsed 0 = 0

def snapshot (regs : Regs) (p : Placement) : RTCTimeData := tReadAt fun j => tick^[p.elapsed j] regs

/-- The registers held all fields of the snapshot at one instant. -/
def Consistent (regs : Regs) (p : Placement) : Prop :=
  ∃ m ≤ p.elapsed 6, snapshot regs p = tRead (tick^[m] regs)

/-! ## Ticks -/

theorem tick_sec (regs : Regs) :
    tick regs Field.sec.reg = roll 0x00 0x59 (regs Field.sec.reg) := rfl

theorem tick_later {field : Field} (h : field ≠ .sec) (regs : Regs) :
    tick regs field.reg =
      if regs Field.sec.reg = 0x59 ∧ CarriesInto regs field then nextValue regs field
      else regs field.reg := by
  simp only [tick, field_reg, h, false_or]

theorem roll_bcd : ∀ n < 60, roll 0x00 0x59 (bcd n) = bcd ((n + 1) % 60) := by decide

theorem bcd_eq_last : ∀ n < 60, bcd n = 0x59 ↔ n = 59 := by decide

theorem bcd_injective {n m : Nat} (hn : n < 60) (hm : m < 60) (h : bcd n = bcd m) : n = m := by
  have hvalue := congrArg BitVec.toNat h
  simp only [bcd, BitVec.toNat_ofNat] at hvalue
  omega

theorem ticks_sec {regs : Regs} {n : Nat} (hn : n < 60) (hsec : regs Field.sec.reg = bcd n)
    (k : Nat) : tick^[k] regs Field.sec.reg = bcd ((n + k) % 60) := by
  induction k with
  | zero => rw [Function.iterate_zero, id, hsec, Nat.add_zero, Nat.mod_eq_of_lt hn]
  | succ k ih =>
      have hlt : (n + k) % 60 < 60 := Nat.mod_lt _ (by decide)
      have hnext : ((n + k) % 60 + 1) % 60 = (n + (k + 1)) % 60 := by omega
      rw [Function.iterate_succ_apply', tick_sec, ih, roll_bcd _ hlt, hnext]

/-- Until the seconds roll over, the other registers stay as they are. -/
theorem ticks_before_roll {regs : Regs} {n : Nat} (hn : n < 60) (hsec : regs Field.sec.reg = bcd n)
    {k : Nat} (hk : n + k < 60) {field : Field} (h : field ≠ .sec) :
    tick^[k] regs field.reg = regs field.reg := by
  induction k with
  | zero => rfl
  | succ k ih =>
      have hidle : tick^[k] regs Field.sec.reg ≠ 0x59 := by
        rw [ticks_sec hn hsec, Nat.mod_eq_of_lt (by omega), Ne, bcd_eq_last _ (by omega)]
        omega
      rw [Function.iterate_succ_apply', tick_later h, if_neg fun hroll => hidle hroll.1]
      exact ih (by omega)

/-- The registers but the seconds agree. -/
def SameLater (regs regs' : Regs) : Prop :=
  ∀ field : Field, field ≠ .sec → regs field.reg = regs' field.reg

theorem SameLater.lastDay {regs regs' : Regs} (h : SameLater regs regs') :
    lastDay regs = lastDay regs' := by
  simp only [Rtc.lastDay, h .mon (by decide), h .year (by decide)]

theorem SameLater.nextValue {regs regs' : Regs} (h : SameLater regs regs') {field : Field}
    (hfield : field ≠ .sec) : nextValue regs field = nextValue regs' field := by
  simp only [Rtc.nextValue, h field hfield, h.lastDay]

theorem SameLater.carriesInto {regs regs' : Regs} (h : SameLater regs regs') (field : Field) :
    CarriesInto regs field ↔ CarriesInto regs' field := by
  unfold CarriesInto EndOfYear EndOfMonth EndOfDay EndOfHour
  rw [h .min (by decide), h .hour (by decide), h .day (by decide), h .mon (by decide), h.lastDay]

theorem tick_rolls {regs regs' : Regs} (h : SameLater regs' regs)
    (hsec : regs' Field.sec.reg = 0x59) {field : Field} (hfield : field ≠ .sec) :
    tick regs' field.reg =
      if CarriesInto regs field then nextValue regs field else regs field.reg := by
  rw [tick_later hfield, hsec, h.nextValue hfield, h field hfield]
  simp only [true_and, h.carriesInto field]

/-- In the minute after the seconds have rolled over, a register is what the carry made of it. -/
theorem ticks_after_roll {regs : Regs} {n : Nat} (hn : n < 60) (hsec : regs Field.sec.reg = bcd n)
    {k : Nat} (hlow : 60 ≤ n + k) (hhigh : n + k < 120) {field : Field} (hfield : field ≠ .sec) :
    tick^[k] regs field.reg =
      if CarriesInto regs field then nextValue regs field else regs field.reg := by
  have hlast : tick^[59 - n] regs Field.sec.reg = 0x59 := by
    rw [ticks_sec hn hsec, bcd_eq_last _ (Nat.mod_lt _ (by decide))]
    omega
  have hsame : SameLater (tick^[59 - n] regs) regs := fun other hother =>
    ticks_before_roll hn hsec (by omega) hother
  have hrolled : tick^[60 - n] regs Field.sec.reg = bcd 0 := by
    rw [ticks_sec hn hsec, show n + (60 - n) = 60 by omega]
  have hsplit : k = (k + n - 60) + (60 - n) := by omega
  rw [hsplit, Function.iterate_add_apply, ticks_before_roll (by decide) hrolled (by omega) hfield,
    show 60 - n = (59 - n) + 1 by omega, Function.iterate_succ_apply',
    tick_rolls hsame hlast hfield]

theorem bcdSucc_ne (value : U32) : bcdSucc value ≠ value := by
  intro h
  have hvalue := congrArg BitVec.toNat h
  have hlt := value.isLt
  unfold bcdSucc at hvalue
  split at hvalue
  · rw [BitVec.toNat_add, show (7 : U32).toNat = 7 from rfl] at hvalue
    omega
  · rw [BitVec.toNat_add, show (1 : U32).toNat = 1 from rfl] at hvalue
    omega

theorem roll_ne {first last : U32} (h : first ≠ last) (value : U32) :
    roll first last value ≠ value := by
  unfold roll
  split
  case isTrue hlast => exact hlast ▸ h
  case isFalse => exact bcdSucc_ne value

theorem one_ne_lastDay (regs : Regs) : 0x01 ≠ lastDay regs := by
  unfold lastDay
  dsimp only
  repeat' split
  all_goals decide

theorem nextValue_ne (regs : Regs) (field : Field) :
    nextValue regs field ≠ regs field.reg := by
  unfold nextValue
  dsimp only
  split
  · exact roll_ne (by decide) _
  · exact roll_ne (by decide) _
  · exact roll_ne (by decide) _
  · exact roll_ne (one_ne_lastDay regs) _
  · exact roll_ne (by decide) _
  · exact roll_ne (by decide) _
  · exact roll_ne (by decide) _

/-- Within a minute a register changes when the seconds roll over and the carry reaches it. -/
theorem ticks_held_iff {regs : Regs} {n : Nat} (hn : n < 60) (hsec : regs Field.sec.reg = bcd n)
    {k : Nat} (hk : k < 60) {field : Field} (hfield : field ≠ .sec) :
    tick^[k] regs field.reg = regs field.reg ↔
      (60 ≤ n + k → ¬ CarriesInto regs field) := by
  by_cases hroll : 60 ≤ n + k
  · rw [ticks_after_roll hn hsec hroll (by omega) hfield, ite_eq_right_iff]
    exact ⟨fun h _ hcarry => nextValue_ne regs field (h hcarry),
      fun h hcarry => absurd hcarry (h hroll)⟩
  · exact iff_of_true (ticks_before_roll hn hsec (by omega) hfield) fun h => absurd h hroll

/-! ## Snapshots -/

theorem tReadAt_eq_iff (regsAt : Nat → Regs) (regs : Regs) :
    tReadAt regsAt = tRead regs ↔
      regsAt 0 Field.sec.reg = regs Field.sec.reg ∧
        ∀ read ∈ laterReads, regsAt read.1 read.2.reg = regs read.2.reg := by
  simp only [tReadAt, tRead, RTCTimeData.mk.injEq, laterReads, List.forall_mem_cons]
  constructor
  · rintro ⟨hyear, hmon, hweek, hday, hhour, hmin, hsec⟩
    exact ⟨hsec, hmin, hhour, hweek, hday, hmon, hyear, by simp⟩
  · rintro ⟨hsec, hmin, hhour, hweek, hday, hmon, hyear, -⟩
    exact ⟨hyear, hmon, hweek, hday, hhour, hmin, hsec⟩

theorem snapshot_eq_iff {regs : Regs} {n : Nat} (hn : n < 60) (hsec : regs Field.sec.reg = bcd n)
    (p : Placement) (m : Nat) :
    snapshot regs p = tRead (tick^[m] regs) ↔
      60 ∣ m ∧ ∀ read ∈ laterReads,
        tick^[p.elapsed read.1] regs read.2.reg = tick^[m] regs read.2.reg := by
  have hseconds : tick^[p.elapsed 0] regs Field.sec.reg = tick^[m] regs Field.sec.reg ↔ 60 ∣ m := by
    rw [p.first, ticks_sec hn hsec, ticks_sec hn hsec]
    refine ⟨fun h => ?_, fun h => ?_⟩
    · have hsame := bcd_injective (Nat.mod_lt _ (by decide)) (Nat.mod_lt _ (by decide)) h
      omega
    · rw [show (n + m) % 60 = (n + 0) % 60 by omega]
  rw [snapshot, tReadAt_eq_iff, hseconds]

theorem laterReads_spec : ∀ read ∈ laterReads, read.1 ≤ 6 ∧ read.2 ≠ .sec := by decide

/--
A snapshot is consistent when the registers held it a number of minutes after the
first read; when the reads take less than a minute, exactly if no carry out of the
seconds reaches a register before it is read.
-/
theorem snapshot_consistent_iff (regs : Regs) {n : Nat} (hn : n < 60)
    (hsec : regs Field.sec.reg = bcd n) (p : Placement) :
    (Consistent regs p ↔
      ∃ minutes, 60 * minutes ≤ p.elapsed 6 ∧ ∀ read ∈ laterReads,
        tick^[p.elapsed read.1] regs read.2.reg =
          tick^[60 * minutes] regs read.2.reg) ∧
    (p.elapsed 6 < 60 →
      (Consistent regs p ↔ ∀ read ∈ laterReads,
        60 ≤ n + p.elapsed read.1 → ¬ CarriesInto regs read.2)) := by
  have hminutes : Consistent regs p ↔
      ∃ minutes, 60 * minutes ≤ p.elapsed 6 ∧ ∀ read ∈ laterReads,
        tick^[p.elapsed read.1] regs read.2.reg =
          tick^[60 * minutes] regs read.2.reg := by
    constructor
    · rintro ⟨m, hm, hsame⟩
      obtain ⟨⟨minutes, rfl⟩, hreads⟩ := (snapshot_eq_iff hn hsec p m).mp hsame
      exact ⟨minutes, hm, hreads⟩
    · rintro ⟨minutes, hm, hreads⟩
      exact ⟨60 * minutes, hm, (snapshot_eq_iff hn hsec p _).mpr ⟨Nat.dvd_mul_right .., hreads⟩⟩
  refine ⟨hminutes, fun hshort => ?_⟩
  have hheld : ∀ read ∈ laterReads,
      (tick^[p.elapsed read.1] regs read.2.reg = regs read.2.reg ↔
        (60 ≤ n + p.elapsed read.1 → ¬ CarriesInto regs read.2)) := fun read hread => by
    obtain ⟨hlast, hfield⟩ := laterReads_spec read hread
    exact ticks_held_iff hn hsec (lt_of_le_of_lt (p.mono hlast) hshort) hfield
  rw [hminutes, ← forall₂_congr hheld]
  constructor
  · rintro ⟨minutes, hm, hreads⟩
    have hzero : 60 * minutes = 0 := by omega
    rw [hzero] at hreads
    exact hreads
  · intro hreads
    exact ⟨0, Nat.zero_le _, hreads⟩

/-- 10:59:59, and a tick after the seconds have been read. -/
def endOfHour : Regs := fun addr =>
  match addr.field with
  | some .sec | some .min => 0x59
  | some .hour => 0x10
  | _ => 0x05

def tickAfterFirst : Placement where
  elapsed j := if j = 0 then 0 else 1
  mono := monotone_nat_of_le_succ fun j => by split <;> simp
  first := rfl

/-- The snapshot is 11:00:59, between 10:59:59 and 11:00:00. -/
theorem end_of_hour_inconsistent :
    snapshot endOfHour tickAfterFirst = ⟨0x05, 0x05, 0x05, 0x05, 0x11, 0x00, 0x59⟩ ∧
      ¬ Consistent endOfHour tickAfterFirst := by
  refine ⟨by decide, ?_⟩
  rintro ⟨m, hm, hsame⟩
  have hcases : m = 0 ∨ m = 1 := by
    have hlast : m ≤ 1 := hm
    omega
  rcases hcases with rfl | rfl
  · exact absurd hsame (by decide)
  · exact absurd hsame (by decide)

/-- The same tick a second earlier. -/
theorem second_before_end_consistent :
    Consistent (Function.update endOfHour Field.sec.reg 0x58) tickAfterFirst :=
  ((snapshot_consistent_iff (Function.update endOfHour Field.sec.reg 0x58) (by decide : 58 < 60)
    (by decide) tickAfterFirst).2 (by decide)).mpr (by decide)

end FarsightDriver.Rtc
