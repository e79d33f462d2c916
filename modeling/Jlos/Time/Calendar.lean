import Mathlib

/-!
# Dates of the clock

`printk_put_realtime` of `kernel/printk.c` splits a number of seconds into a date, and
`rtc_date_to_unix` of `arch/x86/rtc.c` makes a number of seconds of one. The numbers are those of
`uint32_t`.
-/
namespace Jlos.Calendar

structure Date where
  year : Nat
  month : Nat
  day : Nat
  hour : Nat
  min : Nat
  sec : Nat
  deriving DecidableEq, Repr

/-- `s_days_before_month`, of which `rtc_date_to_unix` has a copy -/
def daysBeforeMonth : List Nat := [0, 31, 59, 90, 120, 151, 181, 212, 243, 273, 304, 334]

def leap (year : Nat) : Bool := year % 4 = 0 ∧ year % 100 ≠ 0 ∨ year % 400 = 0

def daysInYear (year : Nat) : Nat := if leap year then 366 else 365

/-- The loop of `printk_put_realtime` over the years -/
def yearLoop (days year : Nat) : Nat × Nat :=
  if days < daysInYear year then (days, year) else yearLoop (days - daysInYear year) (year + 1)
termination_by days
decreasing_by
  have pos : 0 < daysInYear year := by unfold daysInYear; split <;> decide
  omega

/-- The loop over the months, with the number of months that are left -/
def monthLoop (leap : Bool) (days : Nat) : Nat → Nat → Nat
  | 0, month => month
  | left + 1, month =>
    if days < daysBeforeMonth.getD month 0 + if leap ∧ month ≥ 2 then 1 else 0 then month
    else monthLoop leap days left (month + 1)

def dayOf (leap : Bool) (days month : Nat) : Nat :=
  (days + 2 ^ 32 - daysBeforeMonth.getD (month - 1) 0 - (if leap ∧ month - 1 ≥ 2 then 1 else 0) + 1) % 2 ^ 32

def printkPutRealtime (unixSec : BitVec 32) : Date :=
  let secsInDay := unixSec.toNat % 86400
  let (days, year) := yearLoop (unixSec.toNat / 86400) 1970
  let month := monthLoop (leap year) days 11 1
  ⟨year, month, dayOf (leap year) days month, secsInDay / 3600, secsInDay % 3600 / 60, secsInDay % 60⟩

/-- The loop of `rtc_date_to_unix` -/
def daysBeforeYear (year : Nat) : Nat :=
  (List.range' 1970 (year - 1970)).foldl (fun days y => if leap y then days + 366 else days + 365) 0

def rtcDateToUnix (d : Date) : BitVec 32 :=
  let days := daysBeforeYear d.year + daysBeforeMonth.getD (d.month - 1) 0
  let days := if d.month > 2 ∧ leap d.year then days + 1 else days
  let days := days + (d.day + 2 ^ 32 - 1)
  BitVec.ofNat 32 (days * 86400 + d.hour * 3600 + d.min * 60 + d.sec)

/-- The length of a month in the Gregorian calendar -/
def monthLength (leap : Bool) : Nat → Nat
  | 2 => if leap then 29 else 28
  | 4 | 6 | 9 | 11 => 30
  | _ => 31

def Date.Valid (d : Date) : Prop :=
  (1 ≤ d.month ∧ d.month ≤ 12) ∧ (1 ≤ d.day ∧ d.day ≤ monthLength (leap d.year) d.month) ∧
    d.hour < 24 ∧ d.min < 60 ∧ d.sec < 60

theorem daysBeforeYear_succ {year : Nat} (le : 1970 ≤ year) :
    daysBeforeYear (year + 1) = daysBeforeYear year + daysInYear year := by
  rw [daysBeforeYear, daysBeforeYear, Nat.succ_sub le, List.range'_concat, List.foldl_append, Nat.one_mul,
    Nat.add_sub_cancel' le, daysInYear]
  dsimp only [List.foldl]
  split <;> rfl

/-- The days that the loop has taken off are those of the years that it has passed. -/
theorem yearLoop_spec (days year : Nat) (le : 1970 ≤ year) :
    (yearLoop days year).1 < daysInYear (yearLoop days year).2 ∧
      daysBeforeYear (yearLoop days year).2 + (yearLoop days year).1 = daysBeforeYear year + days := by
  fun_induction yearLoop days year with
  | case1 days year last => exact ⟨last, rfl⟩
  | case2 days year more ih =>
    obtain ⟨inside, total⟩ := ih (by omega)
    rw [daysBeforeYear_succ le] at total
    exact ⟨inside, by omega⟩

/-- A day of a year is the one that its month and day count up to. -/
theorem monthLoop_spec : ∀ leap : Bool, ∀ days < if leap then 366 else 365,
    (1 ≤ monthLoop leap days 11 1 ∧ monthLoop leap days 11 1 ≤ 12) ∧
    (1 ≤ dayOf leap days (monthLoop leap days 11 1) ∧
      dayOf leap days (monthLoop leap days 11 1) ≤ monthLength leap (monthLoop leap days 11 1)) ∧
    daysBeforeMonth.getD (monthLoop leap days 11 1 - 1) 0 + (if monthLoop leap days 11 1 > 2 ∧ leap then 1 else 0) +
      dayOf leap days (monthLoop leap days 11 1) = days + 1 := by
  decide +kernel

/-- For every number of seconds, the date that is printed is valid, and stands for this number. -/
theorem realtime_read_back (unixSec : BitVec 32) :
    (printkPutRealtime unixSec).Valid ∧ rtcDateToUnix (printkPutRealtime unixSec) = unixSec := by
  obtain ⟨inside, total⟩ := yearLoop_spec (unixSec.toNat / 86400) 1970 (Nat.le_refl _)
  unfold printkPutRealtime
  generalize yearLoop (unixSec.toNat / 86400) 1970 = x at inside total
  obtain ⟨days, year⟩ := x
  obtain ⟨month, day, count⟩ := monthLoop_spec (leap year) days inside
  dsimp only at *
  refine ⟨⟨month, day, by dsimp only; omega, by dsimp only; omega, Nat.mod_lt _ (by decide)⟩, ?_⟩
  have first : daysBeforeYear 1970 = 0 := rfl
  have small := unixSec.isLt
  apply BitVec.eq_of_toNat_eq
  rw [rtcDateToUnix, BitVec.toNat_ofNat]
  dsimp only
  split at count <;> split <;> first | contradiction | omega

end Jlos.Calendar
