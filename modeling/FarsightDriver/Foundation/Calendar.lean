import Mathlib.Data.Nat.Basic

/-!
# A calendar clock

A time of a century whose every fourth year is a leap year, with a day of the
week that is counted beside the date, and the second that follows it.
-/

namespace FarsightDriver.Foundation

def daysIn (year mon : Nat) : Nat :=
  if mon = 2 then if year % 4 = 0 then 29 else 28
  else if mon = 4 ∨ mon = 6 ∨ mon = 9 ∨ mon = 11 then 30
  else 31

theorem daysIn_range (year mon : Nat) : 28 ≤ daysIn year mon ∧ daysIn year mon ≤ 31 := by
  unfold daysIn
  split <;> split <;> decide

structure Calendar where
  year : Nat
  mon : Nat
  day : Nat
  week : Nat
  hour : Nat
  min : Nat
  sec : Nat
  year_le : year ≤ 99
  mon_range : 1 ≤ mon ∧ mon ≤ 12
  day_range : 1 ≤ day ∧ day ≤ daysIn year mon
  week_range : 1 ≤ week ∧ week ≤ 7
  hour_le : hour ≤ 23
  min_le : min ≤ 59
  sec_le : sec ≤ 59
  deriving DecidableEq

namespace Calendar

def EndOfMinute (c : Calendar) : Prop := c.sec = 59

def EndOfHour (c : Calendar) : Prop := c.EndOfMinute ∧ c.min = 59

def EndOfDay (c : Calendar) : Prop := c.EndOfHour ∧ c.hour = 23

def EndOfMonth (c : Calendar) : Prop := c.EndOfDay ∧ c.day = daysIn c.year c.mon

def EndOfYear (c : Calendar) : Prop := c.EndOfMonth ∧ c.mon = 12

instance (c : Calendar) : Decidable c.EndOfMinute := inferInstanceAs (Decidable (_ = _))
instance (c : Calendar) : Decidable c.EndOfHour := inferInstanceAs (Decidable (_ ∧ _))
instance (c : Calendar) : Decidable c.EndOfDay := inferInstanceAs (Decidable (_ ∧ _))
instance (c : Calendar) : Decidable c.EndOfMonth := inferInstanceAs (Decidable (_ ∧ _))
instance (c : Calendar) : Decidable c.EndOfYear := inferInstanceAs (Decidable (_ ∧ _))

/-- The next value of a counter from `first` to `last`. -/
def roll (first last value : Nat) : Nat := if value = last then first else value + 1

theorem roll_range {first last value : Nat} (hrange : first ≤ value ∧ value ≤ last) :
    first ≤ roll first last value ∧ roll first last value ≤ last := by
  unfold roll
  split <;> omega

theorem carried_range {carry : Prop} [Decidable carry] {first last value : Nat}
    (hrange : first ≤ value ∧ value ≤ last) :
    first ≤ (if carry then roll first last value else value) ∧
      (if carry then roll first last value else value) ≤ last := by
  split
  · exact roll_range hrange
  · exact hrange

theorem day_carried (c : Calendar) :
    1 ≤ (if c.EndOfDay then roll 1 (daysIn c.year c.mon) c.day else c.day) ∧
      (if c.EndOfDay then roll 1 (daysIn c.year c.mon) c.day else c.day) ≤
        daysIn (if c.EndOfYear then roll 0 99 c.year else c.year)
          (if c.EndOfMonth then roll 1 12 c.mon else c.mon) := by
  by_cases hmonth : c.EndOfMonth
  · -- the first of a month that has 28 days at least
    rw [if_pos hmonth.1, roll, if_pos hmonth.2]
    exact ⟨Nat.le_refl 1, Nat.le_trans (by decide) (daysIn_range _ _).1⟩
  · have hyear : ¬ c.EndOfYear := fun hyear => hmonth hyear.1
    rw [if_neg hmonth, if_neg hyear]
    exact carried_range c.day_range

/-- The second that follows. -/
def next (c : Calendar) : Calendar where
  year := if c.EndOfYear then roll 0 99 c.year else c.year
  mon := if c.EndOfMonth then roll 1 12 c.mon else c.mon
  day := if c.EndOfDay then roll 1 (daysIn c.year c.mon) c.day else c.day
  week := if c.EndOfDay then roll 1 7 c.week else c.week
  hour := if c.EndOfHour then roll 0 23 c.hour else c.hour
  min := if c.EndOfMinute then roll 0 59 c.min else c.min
  sec := roll 0 59 c.sec
  year_le := (carried_range ⟨Nat.zero_le _, c.year_le⟩).2
  mon_range := carried_range c.mon_range
  day_range := c.day_carried
  week_range := carried_range c.week_range
  hour_le := (carried_range ⟨Nat.zero_le _, c.hour_le⟩).2
  min_le := (carried_range ⟨Nat.zero_le _, c.min_le⟩).2
  sec_le := (roll_range ⟨Nat.zero_le _, c.sec_le⟩).2

end Calendar

end FarsightDriver.Foundation
