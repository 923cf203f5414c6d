import FarsightDriver.Foundation.Checked
import FarsightDriver.Rtc.Clock
import FarsightDriver.Rtc.RoundTrip

/-!
# The clock program

The program fetches the time with `RTC_DISPLAY`, turns the BCD fields into
numbers in place and prints them.  Every open of the device starts the clock at
19:11:00 on the 12th of May '16, and from then on the program prints what a
calendar shows, as long as nobody sets the time.
-/

namespace FarsightDriver.Rtc

open FarsightDriver.Foundation

/-! ## `hex2dec` -/

/-- `unit + dec * 10`, in `int`. -/
def decimalOf (field : U32) : Checked U32 := do
  let unit := field % 16
  let dec := (field - unit) / 16
  let tens ← checkedInt (dec.toNat * 10)
  let value ← checkedInt (unit.toNat + tens)
  return .ofInt 32 value

def yearOf (field : U32) : Checked U32 := do
  let unit := field % 16
  let dec := (field - unit) / 16 % 16
  let hnd := ((field - unit) / 16 - dec) / 16
  let tens ← checkedInt (dec.toNat * 10)
  let low ← checkedInt (unit.toNat + tens)
  let hundreds ← checkedInt (hnd.toNat * 100)
  let value ← checkedInt (low + hundreds)
  return .ofInt 32 value

def hex2dec (tData : RTCTimeData) : Checked RTCTimeData := do
  let bcdSec ← decimalOf tData.bcdSec
  let bcdMin ← decimalOf tData.bcdMin
  let bcdHour ← decimalOf tData.bcdHour
  let bcdWeek := tData.bcdWeek % 16
  let bcdDay ← decimalOf tData.bcdDay
  let bcdMon ← decimalOf tData.bcdMon
  let bcdYear ← yearOf tData.bcdYear
  return ⟨bcdYear, bcdMon, bcdWeek, bcdDay, bcdHour, bcdMin, bcdSec⟩

/-- The fields as numbers. -/
def decimalData (c : Calendar) : RTCTimeData where
  bcdYear := .ofNat 32 c.year
  bcdMon := .ofNat 32 c.mon
  bcdWeek := .ofNat 32 c.week
  bcdDay := .ofNat 32 c.day
  bcdHour := .ofNat 32 c.hour
  bcdMin := .ofNat 32 c.min
  bcdSec := .ofNat 32 c.sec

theorem decimalOf_bcd : ∀ n < 100, decimalOf (bcd n) = .ok (.ofNat 32 n) := by decide

theorem yearOf_bcd : ∀ n < 100, yearOf (bcd n) = .ok (.ofNat 32 n) := by decide

theorem week_bcd : ∀ n < 10, bcd n % 16 = .ofNat 32 n := by decide

theorem hex2dec_shows {regs : Regs} {c : Calendar} (h : Shows regs c) :
    hex2dec (tRead regs) = .ok (decimalData c) := by
  have hfield (field : Field) : decimalOf (regs field.reg) = .ok (.ofNat 32 (field.of c)) := by
    obtain ⟨hvalue, hlast⟩ := field.in_span c
    rw [h field]
    exact decimalOf_bcd _ (by omega)
  have hyear : yearOf (regs Field.year.reg) = .ok (.ofNat 32 c.year) := by
    rw [h .year]
    exact yearOf_bcd _ (Nat.lt_succ_of_le c.year_le)
  have hweek : regs Field.week.reg % 16 = .ofNat 32 c.week := by
    rw [h .week]
    exact week_bcd _ (Nat.lt_of_le_of_lt c.week_range.2 (by decide))
  rw [hex2dec, show (tRead regs).bcdSec = regs Field.sec.reg from rfl, hfield,
    show (tRead regs).bcdMin = regs Field.min.reg from rfl, hfield,
    show (tRead regs).bcdHour = regs Field.hour.reg from rfl, hfield,
    show (tRead regs).bcdWeek = regs Field.week.reg from rfl, hweek,
    show (tRead regs).bcdDay = regs Field.day.reg from rfl, hfield,
    show (tRead regs).bcdMon = regs Field.mon.reg from rfl, hfield,
    show (tRead regs).bcdYear = regs Field.year.reg from rfl, hyear]
  rfl

/-! ## The line that is printed -/

/-- `%.nd` of a number that is not negative. -/
def decimal (precision n : Nat) : List Char :=
  let digits := Nat.toDigits 10 n
  List.replicate (precision - digits.length) '0' ++ digits

/-- `20%d-%.2d-%.2d %d %.2d:%.2d:%.2d` and the end of the line. -/
def line (tData : RTCTimeData) : List Char :=
  '2' :: '0' :: (decimal 1 tData.bcdYear.toNat ++ '-' :: (decimal 2 tData.bcdMon.toNat ++ '-' ::
    (decimal 2 tData.bcdDay.toNat ++ ' ' :: (decimal 1 tData.bcdWeek.toNat ++ ' ' ::
      (decimal 2 tData.bcdHour.toNat ++ ':' :: (decimal 2 tData.bcdMin.toNat ++ ':' ::
        (decimal 2 tData.bcdSec.toNat ++ [ '\n'])))))))

/-- The number that digits stand for. -/
def number (digits : List Char) : Nat :=
  digits.foldl (fun value digit => value * 10 + (digit.toNat - '0'.toNat)) 0

theorem number_decimal :
    ∀ n < 100, number (decimal 1 n) = n ∧ number (decimal 2 n) = n ∧ (decimal 2 n).length = 2 ∧
      '-' ∉ decimal 1 n := by
  decide

theorem week_length : ∀ n < 10, (decimal 1 n).length = 1 := by decide

theorem two_digits {n m : Nat} (hn : n < 100) (hm : m < 100) {rest rest' : List Char}
    (h : decimal 2 n ++ rest = decimal 2 m ++ rest') : n = m ∧ rest = rest' := by
  obtain ⟨-, hvalue, hlength, -⟩ := number_decimal n hn
  obtain ⟨-, hvalue', hlength', -⟩ := number_decimal m hm
  obtain ⟨hdigits, hrest⟩ := List.append_inj h (hlength.trans hlength'.symm)
  exact ⟨by rw [← hvalue, hdigits, hvalue'], hrest⟩

theorem one_digit {n m : Nat} (hn : n < 10) (hm : m < 10) {rest rest' : List Char}
    (h : decimal 1 n ++ rest = decimal 1 m ++ rest') : n = m ∧ rest = rest' := by
  obtain ⟨hvalue, -⟩ := number_decimal n (by omega)
  obtain ⟨hvalue', -⟩ := number_decimal m (by omega)
  obtain ⟨hdigits, hrest⟩ :=
    List.append_inj h ((week_length n hn).trans (week_length m hm).symm)
  exact ⟨by rw [← hvalue, hdigits, hvalue'], hrest⟩

theorem digits_to_hyphen {n m : Nat} (hn : n < 100) (hm : m < 100) {rest rest' : List Char}
    (h : decimal 1 n ++ '-' :: rest = decimal 1 m ++ '-' :: rest') : n = m ∧ rest = rest' := by
  have hdigits {n : Nat} (hn : n < 100) (rest : List Char) :
      (decimal 1 n ++ '-' :: rest).takeWhile (· ≠ '-') = decimal 1 n := by
    obtain ⟨-, -, -, hout⟩ := number_decimal n hn
    have hall : ∀ digit ∈ decimal 1 n, decide (digit ≠ '-') = true := by
      intro digit hdigit
      refine decide_eq_true ?_
      rintro rfl
      exact hout hdigit
    rw [List.takeWhile_append_of_pos hall]
    simp
  obtain ⟨hvalue, -⟩ := number_decimal n hn
  obtain ⟨hvalue', -⟩ := number_decimal m hm
  have hsame : n = m := by
    rw [← hvalue, ← hdigits hn rest, h, hdigits hm rest', hvalue']
  subst hsame
  exact ⟨rfl, (List.cons.inj (List.append_cancel_left h)).2⟩

theorem decimalData_toNat (c : Calendar) :
    (decimalData c).bcdYear.toNat = c.year ∧ (decimalData c).bcdMon.toNat = c.mon ∧
      (decimalData c).bcdDay.toNat = c.day ∧ (decimalData c).bcdWeek.toNat = c.week ∧
      (decimalData c).bcdHour.toNat = c.hour ∧ (decimalData c).bcdMin.toNat = c.min ∧
      (decimalData c).bcdSec.toNat = c.sec := by
  have hfield (field : Field) : (BitVec.ofNat 32 (field.of c)).toNat = field.of c := by
    obtain ⟨hvalue, hlast⟩ := field.in_span c
    rw [BitVec.toNat_ofNat, Nat.mod_eq_of_lt (by omega)]
  exact ⟨hfield .year, hfield .mon, hfield .day, hfield .week, hfield .hour, hfield .min,
    hfield .sec⟩

def calendarLine (c : Calendar) : List Char := line (decimalData c)

/-- Two times that print the same line are the same, although the year is not padded. -/
theorem calendarLine_injective : Function.Injective calendarLine := by
  intro c c' h
  have hsmall (c : Calendar) (field : Field) : field.of c < 100 := by
    obtain ⟨hvalue, hlast⟩ := field.in_span c
    omega
  obtain ⟨hyear, hmon, hday, hweek, hhour, hmin, hsec⟩ := decimalData_toNat c
  obtain ⟨hyear', hmon', hday', hweek', hhour', hmin', hsec'⟩ := decimalData_toNat c'
  simp only [calendarLine, line, hyear, hmon, hday, hweek, hhour, hmin, hsec, hyear', hmon', hday',
    hweek', hhour', hmin', hsec', List.cons.injEq, true_and] at h
  obtain ⟨hyears, h⟩ := digits_to_hyphen (hsmall c .year) (hsmall c' .year) h
  obtain ⟨hmons, h⟩ := two_digits (hsmall c .mon) (hsmall c' .mon) h
  obtain ⟨hdays, h⟩ := two_digits (hsmall c .day) (hsmall c' .day) (List.cons.inj h).2
  obtain ⟨hweeks, h⟩ := one_digit (by have := c.week_range; omega) (by have := c'.week_range; omega)
    (List.cons.inj h).2
  obtain ⟨hhours, h⟩ := two_digits (hsmall c .hour) (hsmall c' .hour) (List.cons.inj h).2
  obtain ⟨hmins, h⟩ := two_digits (hsmall c .min) (hsmall c' .min) (List.cons.inj h).2
  obtain ⟨hsecs, -⟩ := two_digits (hsmall c .sec) (hsmall c' .sec) (List.cons.inj h).2
  obtain ⟨⟩ := c
  obtain ⟨⟩ := c'
  simp_all [Field.of]

/-! ## The program and the clock -/

structure App where
  driver : Driver
  tData : RTCTimeData
  printed : List (List Char)

/-- `second` is the clock's.  `call` is a call of any process. -/
inductive Event where
  | second
  | call (call : Call)
  | display

/-- One pass of the loop of command 0, up to its `sleep`. -/
def App.display (s : App) : Checked App := do
  let (driver, result) := s.driver.call (.rtcIoctl rtcDisplay ⟨s.tData.bytes, sizeofTData⟩)
  let tData ← hex2dec (copyFromUser s.tData result.copied)
  return ⟨driver, tData, s.printed ++ [line tData]⟩

def App.event (s : App) : Event → Checked App
  | .second => .ok { s with driver := { s.driver with regs := tick s.driver.regs } }
  | .call call => .ok { s with driver := (s.driver.call call).1 }
  | .display => s.display

def App.run (s : App) : List Event → Checked App
  | [] => .ok s
  | event :: rest => do
      let next ← s.event event
      next.run rest

/-- Command 0: `t` passes, with the seconds that go by in each `sleep`. -/
def command0 (sleeps : Vector Nat 15) : List Event :=
  sleeps.toList.flatMap fun seconds => .display :: List.replicate seconds .second

def command2 (sec : UserMemory) : List Event := [.call (.rtcIoctl rtcUndis sec)]

/-- The time that `RTC_open` sets. -/
def openTime : Calendar where
  year := 16
  mon := 5
  day := 12
  week := 3
  hour := 19
  min := 11
  sec := 0
  year_le := by decide
  mon_range := by decide
  day_range := by decide
  week_range := by decide
  hour_le := by decide
  min_le := by decide
  sec_le := by decide

def Event.Sets : Event → Prop
  | .call (.rtcIoctl cmd _) => cmd = rtcSetCmd
  | _ => False

/-! ## What the program prints -/

/-- The calendar that the events lead to. -/
def calendarAfter (c : Calendar) : Event → Calendar
  | .second => c.next
  | .call .rtcOpen => openTime
  | .call _ | .display => c

def Event.shown (c : Calendar) : Event → List (List Char)
  | .display => [calendarLine c]
  | .second | .call _ => []

def calendarLines (c : Calendar) : List Event → List (List Char)
  | [] => []
  | event :: rest => event.shown c ++ calendarLines (calendarAfter c event) rest

theorem shows_open (regs : Regs) : Shows (rtcOpen regs) openTime := by
  intro field
  simp only [rtcOpen, ioWr32_all]
  cases field <;> simp [ioWr32, Function.update, Field.reg] <;> rfl

theorem display_shows {s : App} {c : Calendar} (h : Shows s.driver.regs c) :
    ∃ next, s.display = .ok next ∧ next.driver.regs = s.driver.regs ∧
      next.printed = s.printed ++ [calendarLine c] := by
  have hcopied : copyFromUser s.tData (copyToUser sizeofTData (tRead s.driver.regs)) =
      tRead s.driver.regs := by
    refine copyFromUser_eq s.tData ?_
    rw [copyToUser, ← RTCTimeData.bytes_length (tRead s.driver.regs), List.take_length]
  refine ⟨⟨{ s.driver with tData := tRead s.driver.regs }, decimalData c,
    s.printed ++ [calendarLine c]⟩, ?_, rfl, rfl⟩
  simp only [App.display, Driver.call, rtcIoctl, if_true, hcopied, hex2dec_shows h]
  rfl

/-- The program in one event is the calendar in one event. -/
theorem event_shows {s : App} {c : Calendar} (h : Shows s.driver.regs c) {event : Event}
    (hquiet : ¬ event.Sets) :
    ∃ next, s.event event = .ok next ∧ Shows next.driver.regs (calendarAfter c event) ∧
      next.printed = s.printed ++ event.shown c := by
  cases event with
  | second => exact ⟨_, rfl, shows_tick h, (List.append_nil _).symm⟩
  | display =>
      obtain ⟨next, hdisplay, hregs, hprinted⟩ := display_shows h
      exact ⟨next, hdisplay, by rw [hregs]; exact h, hprinted⟩
  | call call =>
      refine ⟨_, rfl, ?_, (List.append_nil _).symm⟩
      cases call with
      | rtcOpen => exact shows_open _
      | rtcRead | rtcWrite | rtcClose => exact h
      | rtcIoctl cmd arg =>
          change Shows (s.driver.call (.rtcIoctl cmd arg)).1.regs c
          rw [call_quiet s.driver (show (Call.rtcIoctl cmd arg).Quiet from hquiet)]
          exact h

theorem run_shows {s : App} {c : Calendar} (h : Shows s.driver.regs c) {events : List Event}
    (hquiet : ∀ event ∈ events, ¬ event.Sets) :
    ∃ finish, s.run events = .ok finish ∧
      finish.printed = s.printed ++ calendarLines c events ∧
      Shows finish.driver.regs (events.foldl calendarAfter c) := by
  induction events generalizing s c with
  | nil => exact ⟨s, rfl, (List.append_nil _).symm, h⟩
  | cons event rest ih =>
      obtain ⟨hevent, hrest⟩ := List.forall_mem_cons.mp hquiet
      obtain ⟨next, hnext, hshows, hprinted⟩ := event_shows h hevent
      obtain ⟨finish, hfinish, hlines, hlast⟩ := ih hshows hrest
      refine ⟨finish, ?_, ?_, hlast⟩
      · rw [App.run, hnext]
        exact hfinish
      · rw [hlines, hprinted, calendarLines, List.append_assoc]

theorem calendarLines_rounds (rounds : List Nat) (c : Calendar) :
    calendarLines c (rounds.flatMap fun seconds => .display :: List.replicate seconds .second) =
      (List.range rounds.length).map fun i =>
        calendarLine (Calendar.next^[(rounds.take i).sum] c) := by
  have hseconds (c : Calendar) (seconds : Nat) (rest : List Event) :
      calendarLines c (List.replicate seconds .second ++ rest) =
        calendarLines (Calendar.next^[seconds] c) rest := by
    induction seconds generalizing c with
    | zero => rfl
    | succ seconds ih => exact ih c.next
  induction rounds generalizing c with
  | nil => rfl
  | cons seconds rest ih =>
      rw [List.flatMap_cons, List.cons_append, calendarLines, calendarAfter, hseconds, ih,
        List.length_cons, List.range_succ_eq_map, List.map_cons, List.map_map]
      refine congrArg (calendarLine c :: ·) (List.map_congr_left fun i _ => ?_)
      simp only [Function.comp_apply, List.take_succ_cons, List.sum_cons,
        Nat.add_comm seconds, Function.iterate_add_apply]

/-- Command 0 prints fifteen lines, each later than the one before by what it has slept. -/
theorem command0_prints {s : App} {c : Calendar} (h : Shows s.driver.regs c)
    (sleeps : Vector Nat 15) :
    ∃ finish, s.run (command0 sleeps) = .ok finish ∧
      finish.printed = s.printed ++ (List.range 15).map fun i =>
        calendarLine (Calendar.next^[(sleeps.toList.take i).sum] c) := by
  have hquiet : ∀ event ∈ command0 sleeps, ¬ event.Sets := by
    intro event hevent
    obtain ⟨seconds, -, hround⟩ := List.mem_flatMap.mp hevent
    rcases List.mem_cons.mp hround with rfl | hsecond
    · exact id
    · rw [(List.mem_replicate.mp hsecond).2]
      exact id
  obtain ⟨finish, hrun, hprinted, -⟩ := run_shows h hquiet
  refine ⟨finish, hrun, ?_⟩
  rw [hprinted, command0, calendarLines_rounds, Vector.length_toList]

/-- From an open of the device on, whatever was in the registers before. -/
theorem program_shows_calendar (s : App) (events : List Event)
    (hquiet : ∀ event ∈ events, ¬ event.Sets) :
    ∃ finish, s.run (.call .rtcOpen :: events) = .ok finish ∧
      finish.printed = s.printed ++ calendarLines openTime events ∧
      Shows finish.driver.regs (events.foldl calendarAfter openTime) := by
  let opened : App := { s with driver := { s.driver with regs := rtcOpen s.driver.regs } }
  obtain ⟨finish, hrun, hprinted, hshows⟩ :=
    run_shows (s := opened) (shows_open s.driver.regs) hquiet
  refine ⟨finish, ?_, hprinted, hshows⟩
  rw [App.run]
  exact hrun

/-- Two lines, and the 19 seconds in between. -/
theorem two_lines_printed :
    ∃ finish, (⟨blank, appTime, []⟩ : App).run (.call .rtcOpen :: [.display] ++
        List.replicate 19 .second ++ command2 ⟨[], 0⟩ ++ [.display]) = .ok finish ∧
      finish.printed = [ "2016-05-12 3 19:11:00\n".toList, "2016-05-12 3 19:11:19\n".toList] := by
  obtain ⟨finish, hrun, hprinted, -⟩ := program_shows_calendar ⟨blank, appTime, []⟩
    ([.display] ++ List.replicate 19 .second ++ command2 ⟨[], 0⟩ ++ [.display]) (by
      intro event hevent
      simp only [command2, List.mem_append, List.mem_singleton, List.mem_replicate] at hevent
      obtain ((rfl | ⟨-, rfl⟩) | rfl) | rfl := hevent
      · exact id
      · exact id
      · exact (by decide : rtcUndis ≠ rtcSetCmd)
      · exact id)
  refine ⟨finish, hrun, hprinted.trans ?_⟩
  decide

end FarsightDriver.Rtc
