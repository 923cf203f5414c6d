import FarsightDriver.Foundation.Calendar
import FarsightDriver.Rtc.Snapshot

/-!
# The registers as a calendar

The registers show a time of the calendar when each holds its field in BCD.  A
second of the clock is then a second of the calendar.
-/

namespace FarsightDriver.Rtc

open FarsightDriver.Foundation

def Field.of (c : Calendar) : Field → Nat
  | .sec => c.sec
  | .min => c.min
  | .hour => c.hour
  | .day => c.day
  | .week => c.week
  | .mon => c.mon
  | .year => c.year

def Shows (regs : Regs) (c : Calendar) : Prop := ∀ field : Field, regs field.reg = bcd (field.of c)

theorem bcd_eq_iff {n m : Nat} (hn : n ≤ 99) (hm : m ≤ 99) : bcd n = bcd m ↔ n = m := by
  refine ⟨fun h => ?_, fun h => h ▸ rfl⟩
  have hvalue := congrArg BitVec.toNat h
  simp only [bcd, BitVec.toNat_ofNat] at hvalue
  omega

theorem ofBcd_bcd {n : Nat} (hn : n ≤ 99) : ofBcd (bcd n) = n := by
  simp only [ofBcd, bcd, BitVec.toNat_ofNat]
  omega

theorem bcdSucc_bcd : ∀ n < 99, bcdSucc (bcd n) = bcd (n + 1) := by decide

theorem roll_bcds {first last n : Nat} (hlast : last ≤ 99) (hn : n ≤ last) :
    roll (bcd first) (bcd last) (bcd n) = bcd (Calendar.roll first last n) := by
  unfold roll Calendar.roll
  by_cases hend : n = last
  · rw [if_pos (congrArg bcd hend), if_pos hend]
  · rw [if_neg fun h => hend ((bcd_eq_iff (by omega) hlast).mp h), if_neg hend,
      bcdSucc_bcd n (by omega)]

variable {regs : Regs} {c : Calendar}

theorem lastDay_shows (h : Shows regs c) : lastDay regs = bcd (daysIn c.year c.mon) := by
  have hmon {n : Nat} (hn : n ≤ 99) : regs Field.mon.reg = bcd n ↔ c.mon = n := by
    rw [h .mon]
    exact bcd_eq_iff (le_trans c.mon_range.2 (by decide)) hn
  have hyear : ofBcd (regs Field.year.reg) = c.year := by
    rw [h .year]
    exact ofBcd_bcd c.year_le
  simp only [lastDay, daysIn, hyear,
    show regs Field.mon.reg = 0x02 ↔ c.mon = 2 from hmon (n := 2) (by decide),
    show regs Field.mon.reg = 0x04 ↔ c.mon = 4 from hmon (n := 4) (by decide),
    show regs Field.mon.reg = 0x06 ↔ c.mon = 6 from hmon (n := 6) (by decide),
    show regs Field.mon.reg = 0x09 ↔ c.mon = 9 from hmon (n := 9) (by decide),
    show regs Field.mon.reg = 0x11 ↔ c.mon = 11 from hmon (n := 11) (by decide)]
  split
  · split <;> rfl
  · split <;> rfl

/-- The carries of the calendar. -/
def Carried (c : Calendar) : Field → Prop
  | .sec => True
  | .min => c.EndOfMinute
  | .hour => c.EndOfHour
  | .day | .week => c.EndOfDay
  | .mon => c.EndOfMonth
  | .year => c.EndOfYear

theorem carried_iff (h : Shows regs c) {field : Field} (hfield : field ≠ .sec) :
    regs Field.sec.reg = 0x59 ∧ CarriesInto regs field ↔ Carried c field := by
  have hsec : regs Field.sec.reg = 0x59 ↔ c.EndOfMinute := by
    rw [h .sec]
    exact bcd_eq_iff (m := 59) (le_trans c.sec_le (by decide)) (by decide)
  have hmin : EndOfHour regs ↔ c.min = 59 := by
    rw [EndOfHour, h .min]
    exact bcd_eq_iff (m := 59) (le_trans c.min_le (by decide)) (by decide)
  have hhour : regs Field.hour.reg = 0x23 ↔ c.hour = 23 := by
    rw [h .hour]
    exact bcd_eq_iff (m := 23) (le_trans c.hour_le (by decide)) (by decide)
  have hday : regs Field.day.reg = lastDay regs ↔ c.day = daysIn c.year c.mon := by
    have hdays := (daysIn_range c.year c.mon).2
    rw [lastDay_shows h, h .day]
    exact bcd_eq_iff (le_trans c.day_range.2 (by omega)) (by omega)
  have hmon : regs Field.mon.reg = 0x12 ↔ c.mon = 12 := by
    rw [h .mon]
    exact bcd_eq_iff (m := 12) (le_trans c.mon_range.2 (by decide)) (by decide)
  cases field with
  | sec => exact absurd rfl hfield
  | min => simp only [CarriesInto, Carried, hsec, and_true]
  | hour => simp only [CarriesInto, Carried, Calendar.EndOfHour, hsec, hmin]
  | day | week =>
      simp only [CarriesInto, Carried, EndOfDay, Calendar.EndOfDay, Calendar.EndOfHour, hsec, hmin,
        hhour, and_assoc]
  | mon =>
      simp only [CarriesInto, Carried, EndOfMonth, EndOfDay, Calendar.EndOfMonth, Calendar.EndOfDay,
        Calendar.EndOfHour, hsec, hmin, hhour, hday, and_assoc]
  | year =>
      simp only [CarriesInto, Carried, EndOfYear, EndOfMonth, EndOfDay, Calendar.EndOfYear,
        Calendar.EndOfMonth, Calendar.EndOfDay, Calendar.EndOfHour, hsec, hmin, hhour, hday, hmon,
        and_assoc]

/-- The bounds of a field. -/
def Field.span (c : Calendar) : Field → Nat × Nat
  | .sec | .min => (0, 59)
  | .hour => (0, 23)
  | .day => (1, daysIn c.year c.mon)
  | .week => (1, 7)
  | .mon => (1, 12)
  | .year => (0, 99)

theorem Field.in_span (c : Calendar) (field : Field) :
    field.of c ≤ (field.span c).2 ∧ (field.span c).2 ≤ 99 := by
  have hdays := (daysIn_range c.year c.mon).2
  cases field with
  | sec => exact ⟨c.sec_le, Nat.le_of_ble_eq_true rfl⟩
  | min => exact ⟨c.min_le, Nat.le_of_ble_eq_true rfl⟩
  | hour => exact ⟨c.hour_le, Nat.le_of_ble_eq_true rfl⟩
  | day => exact ⟨c.day_range.2, le_trans hdays (by decide)⟩
  | week => exact ⟨c.week_range.2, Nat.le_of_ble_eq_true rfl⟩
  | mon => exact ⟨c.mon_range.2, Nat.le_of_ble_eq_true rfl⟩
  | year => exact ⟨c.year_le, Nat.le_refl 99⟩

theorem nextValue_shows (h : Shows regs c) (field : Field) :
    nextValue regs field =
      bcd (Calendar.roll (field.span c).1 (field.span c).2 (field.of c)) := by
  obtain ⟨hvalue, hlast⟩ := field.in_span c
  rw [← roll_bcds hlast hvalue, ← h field]
  cases field with
  | day => simp only [nextValue, Field.span, lastDay_shows h]; rfl
  | sec | min | hour | week | mon | year => simp only [nextValue, Field.span]; rfl

theorem shows_tick (h : Shows regs c) : Shows (tick regs) c.next := by
  intro field
  by_cases hfield : field = .sec
  · subst hfield
    exact nextValue_shows h .sec
  · have hcarry := carried_iff h hfield
    rw [tick_later hfield]
    by_cases hcarried : Carried c field
    · rw [if_pos (hcarry.mpr hcarried), nextValue_shows h]
      refine congrArg bcd ?_
      cases field with
      | sec => exact absurd rfl hfield
      | min | hour | day | week | mon | year => exact (if_pos hcarried).symm
    · rw [if_neg fun hrolls => hcarried (hcarry.mp hrolls), h field]
      refine congrArg bcd ?_
      cases field with
      | sec => exact absurd rfl hfield
      | min | hour | day | week | mon | year => exact (if_neg hcarried).symm

end FarsightDriver.Rtc
