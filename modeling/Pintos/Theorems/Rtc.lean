import Pintos.Devices.Rtc

/-!
# The wall clock is ahead

The loop of `rtc_get_time` over the months counts the current month as past, and the function takes the years whose number
since 1970 is divisible by four for leap years, so that it is ahead of the clock at every date.
-/

namespace Pintos

/-! ## Dates -/

/-- The leap years of the calendar. -/
def isLeap (year : Nat) : Bool := year % 4 == 0 && (year % 100 != 0 || year % 400 == 0)

/-- The days of a month. -/
def monthDays (year month : Nat) : Nat := daysPerMonth.getD (month - 1) 0 + if month = 2 ∧ isLeap year then 1 else 0

/-- The days from the first of January 1970 to the first of a month. -/
def daysBefore (year month : Nat) : Nat :=
  ((List.range (year - 1970)).map (fun i => if isLeap (1970 + i) then 366 else 365)).sum +
    ((List.range (month - 1)).map (fun i => monthDays year (i + 1))).sum

/-- A date and time of the years 1970 to 2038. -/
structure DateTime where
  year : Nat
  month : Nat
  day : Nat
  hour : Nat
  minute : Nat
  second : Nat
  year_mem : 1970 ≤ year ∧ year ≤ 2038
  month_mem : 1 ≤ month ∧ month ≤ 12
  day_mem : 1 ≤ day ∧ day ≤ monthDays year month
  time_lt : hour < 24 ∧ minute < 60 ∧ second < 60

/-- The seconds since the first of January 1970. -/
def DateTime.seconds (d : DateTime) : Nat :=
  (daysBefore d.year d.month + (d.day - 1)) * 86400 + d.hour * 3600 + d.minute * 60 + d.second

/-- A number of two decimal digits, four bits each. -/
def bcd (n : Nat) : UInt8 := (n / 10 * 16 + n % 10).toUInt8

/-- The registers at a date. -/
def DateTime.regs (d : DateTime) : RtcRegs :=
  { sec := bcd d.second, min := bcd d.minute, hour := bcd d.hour, mday := bcd d.day, mon := bcd d.month,
    year := bcd (d.year % 100) }

theorem bcdToBin_bcd : ∀ n < 100, bcdToBin (bcd n) = n := by decide +kernel

theorem monthDays_le {year month : Nat} (h : month ≤ 12) : monthDays year month ≤ 32 := by
  have hall : ∀ m ≤ 12, daysPerMonth.getD (m - 1) 0 ≤ 31 := by decide
  have := hall month h
  unfold monthDays
  split <;> omega

/-- Up to the first of a month `rtc_get_time` counts 26 days too many at least, and few enough for 32 bits. -/
theorem rtcDays_ahead : ∀ y < 69, ∀ m < 12, daysBefore (1970 + y) (m + 1) + 26 ≤ rtcDays y (m + 1) ∧
    rtcDays y (m + 1) ≤ 25300 := by
  decide +kernel

/-- At every date `rtc_get_time` is ahead of the clock, by 26 days at least. -/
theorem rtc_ahead (d : DateTime) : d.seconds + 26 * 86400 ≤ rtcGetTime d.regs := by
  obtain ⟨hy, hy'⟩ := d.year_mem
  obtain ⟨hm, hm'⟩ := d.month_mem
  obtain ⟨hd, hd'⟩ := d.day_mem
  obtain ⟨hh, hmin, hs⟩ := d.time_lt
  have hdays := rtcDays_ahead (d.year - 1970) (by omega) (d.month - 1) (by omega)
  rw [Nat.add_sub_cancel' hy, Nat.sub_add_cancel hm] at hdays
  have hle := @monthDays_le d.year _ hm'
  have hyear : (if d.year % 100 < 70 then d.year % 100 + 100 else d.year % 100) - 70 = d.year - 1970 := by
    split <;> omega
  simp only [rtcGetTime, DateTime.regs, DateTime.seconds, bcdToBin_bcd _ (show d.year % 100 < 100 by omega),
    bcdToBin_bcd _ (show d.month < 100 by omega),
    bcdToBin_bcd _ (show d.day < 100 by omega), bcdToBin_bcd _ (show d.hour < 100 by omega),
    bcdToBin_bcd _ (show d.minute < 100 by omega), bcdToBin_bcd _ (show d.second < 100 by omega), hyear]
  unfold toUInt32
  omega

/-- The first second of 1970. -/
def DateTime.epoch : DateTime := ⟨1970, 1, 1, 0, 0, 0, by decide, by decide, by decide, by decide⟩

/-- At the first second of 1970 it gives the time of a month later. -/
theorem rtc_epoch : DateTime.epoch.seconds = 0 ∧ rtcGetTime DateTime.epoch.regs = 31 * 86400 := by decide +kernel

end Pintos
