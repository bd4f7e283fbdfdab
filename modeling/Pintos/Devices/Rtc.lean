import Pintos.Filesys.Inode

/-!
# The wall clock (`devices/rtc.c`)

The clock gives the parts of a date in registers, which `rtc_get_time` turns into seconds.
-/

namespace Pintos

/-- `bcd_to_bin`. -/
def bcdToBin (x : UInt8) : Nat := (x &&& 0x0f).toNat + (x >>> 4).toNat * 10

/-- The registers of the clock: numbers of two decimal digits, four bits each. -/
structure RtcRegs where
  sec : UInt8
  min : UInt8
  hour : UInt8
  mday : UInt8
  mon : UInt8
  year : UInt8

/-- `days_per_month`. -/
def daysPerMonth : List Nat := [31, 28, 31, 30, 31, 30, 31, 31, 30, 31, 30, 31]

/-- The days that `rtc_get_time` counts up to the first of a month: `(year * 365 + (year - 1) / 4)`, of an `int` year since
1970, and what the loop and the test for leap years add. -/
def rtcDays (year mon : Nat) : Nat :=
  year * 365 + (year - 1) / 4 + ((List.range mon).map (fun i => daysPerMonth.getD i 0)).sum +
    if 2 < mon ∧ year % 4 = 0 then 1 else 0

/-- `rtc_get_time`, with registers that are stable over the read. `time_t` is an unsigned type of 32 bits. -/
def rtcGetTime (r : RtcRegs) : Nat :=
  let year := (if bcdToBin r.year < 70 then bcdToBin r.year + 100 else bcdToBin r.year) - 70
  toUInt32 (rtcDays year (bcdToBin r.mon) * 86400 + (bcdToBin r.mday - 1) * 86400 + bcdToBin r.hour * 3600 + bcdToBin r.min * 60 +
    bcdToBin r.sec)

end Pintos
