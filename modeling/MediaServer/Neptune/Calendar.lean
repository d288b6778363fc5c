/-
The calendar: `FromTimeStamp` and `ToTimeStamp` are inverse.

`FromTimeStamp` guesses the year by 365-day years and moves one year back when
the leap days that the guess forgot do not fit.  `splitYear` is that step, and
`splitYear_spec` says that it finds the year and what is left of the seconds.
`month_spec` does the same for the tables of months, and `seconds_fromTimeStamp`
puts the parts together.  The main results are `toTimeStamp_fromTimeStamp` and,
through the text, `toTimeStamp_fromString`.
-/
import MediaServer.Neptune.DateParsing

namespace MediaServer
namespace Neptune

open Text

/-- A time stamp without its fraction of a second. -/
def TimeStamp.truncated (ts : TimeStamp) : TimeStamp :=
  ⟨Int64.ofInt (ts.toSeconds * 1000000000)⟩

namespace DateTime

/-! ## The year -/

theorem elapsedLeapYears_eq {year : Int} (h : 1901 ≤ year) :
    elapsedLeapYearsSince1900 year =
      (year - 1901) / 4 - (year - 1901) / 100 + (year - 1601) / 400 := by
  rw [elapsedLeapYearsSince1900, if_neg (by omega)]
  dsimp only
  rw [show year - 1 - 1900 = year - 1901 by omega, show year - 1901 + 300 = year - 1601 by omega]

/-- The leap years before a year that the guess can reach are few. -/
theorem elapsedLeapYears_bounds {year : Int} (h : 1901 ≤ year) (h' : year ≤ 2300) :
    0 ≤ elapsedLeapYearsSince1900 year ∧ elapsedLeapYearsSince1900 year ≤ 100 := by
  rw [elapsedLeapYears_eq h]
  omega

def yearLength (year : Int) : Int := 365 + if yearIsLeap year then 1 else 0

theorem yearLength_bounds (year : Int) : 365 ≤ yearLength year ∧ yearLength year ≤ 366 := by
  rw [yearLength]
  split <;> omega

theorem elapsedLeapYears_succ {year : Int} (h : 1901 ≤ year) :
    elapsedLeapYearsSince1900 (year + 1) =
      elapsedLeapYearsSince1900 year + (yearLength year - 365) := by
  have hleap : yearIsLeap year = true ↔ year % 4 = 0 ∧ year % 100 ≠ 0 ∨ year % 400 = 0 := by
    simp [yearIsLeap]
  rw [elapsedLeapYears_eq (by omega), elapsedLeapYears_eq h, yearLength]
  split
  · rename_i hyes
    rw [hleap] at hyes
    omega
  · rename_i hno
    rw [hleap] at hno
    omega

/-- The leap day that is given back when the guess was a year too far. -/
theorem leapDay_eq (year rest : Int) :
    (if yearIsLeap year then rest + 86400 else rest) =
      rest + (yearLength year - 365) * 86400 := by
  rw [yearLength]
  split <;> omega

/-- The years since 1900 and the seconds elapsed in the current one, from the
seconds since 1900. -/
def splitYear (seconds : Int) : Int × Int :=
  let years := seconds / secondsPerYear
  let rest := seconds - years * secondsPerYear
  let leapYears := elapsedLeapYearsSince1900 (years + 1900)
  let back := rest < leapYears * secondsPerDay
  let years := if back then years - 1 else years
  (years,
    if back then
      let rest := rest + secondsPerYear - leapYears * secondsPerDay
      if yearIsLeap (years + 1900) then rest + secondsPerDay else rest
    else rest - leapYears * secondsPerDay)

structure YearSplit (seconds years rest : Int) : Prop where
  after1900 : 1 ≤ years
  before2263 : years ≤ 362
  nonneg : 0 ≤ rest
  withinYear : rest < yearLength (years + 1900) * 86400
  total : seconds =
    (years * 365 + elapsedLeapYearsSince1900 (years + 1900)) * 86400 + rest

theorem splitYear_spec {seconds : Int} (hlow : 31536000 ≤ seconds)
    (hhigh : seconds ≤ 11432360836) :
    YearSplit seconds (splitYear seconds).1 (splitYear seconds).2 := by
  have hyear : secondsPerYear = 31536000 := rfl
  have hday : secondsPerDay = 86400 := rfl
  simp only [splitYear, hyear, hday]
  generalize hyears : seconds / 31536000 = years
  have hleaps := elapsedLeapYears_bounds (show 1901 ≤ years + 1900 by omega) (by omega)
  by_cases hback : seconds - years * 31536000 <
      elapsedLeapYearsSince1900 (years + 1900) * 86400
  · -- No leap year comes before 1901, so the guess was a later year.
    have hone : years ≠ 1 := by
      intro h
      have hfirst : elapsedLeapYearsSince1900 (1 + 1900) = 0 := by decide
      rw [h, hfirst] at hback
      omega
    have hsucc := elapsedLeapYears_succ (show 1901 ≤ years - 1 + 1900 by omega)
    rw [show years - 1 + 1900 + 1 = years + 1900 by omega] at hsucc
    have hlength := yearLength_bounds (years - 1 + 1900)
    simp only [hback, if_true, leapDay_eq]
    exact ⟨by omega, by omega, by omega, by omega, by omega⟩
  · have hlength := yearLength_bounds (years + 1900)
    simp only [hback, if_false]
    exact ⟨by omega, by omega, by omega, by omega, by omega⟩

/-! ## The month -/

def monthDays (isLeapYear : Bool) : List Int :=
  if isLeapYear then timeMonthDayLeap else timeMonthDay

/-- The day of the year that a month and a day of it are, as `ElapsedDaysSince1900`
counts. -/
def dayOfYear (isLeapYear : Bool) (month day : Int) : Int :=
  let dayCount := timeElapsedDaysAtMonth.getD (month - 1).toNat 0 + day - 1
  if isLeapYear && month > 2 then dayCount + 1 else dayCount

structure MonthSplit (isLeapYear : Bool) (dayOfTheYear : Int) (month : Nat) (day : Int) :
    Prop where
  month_low : 1 ≤ month
  month_high : month ≤ 12
  day_low : 1 ≤ day
  day_high : day ≤ 31
  total : dayOfYear isLeapYear month day = dayOfTheYear

theorem month_spec (isLeapYear : Bool) {dayOfTheYear : Nat}
    (h : dayOfTheYear < if isLeapYear then 366 else 365) :
    MonthSplit isLeapYear dayOfTheYear (monthOfDay (monthDays isLeapYear) dayOfTheYear)
      (dayOfTheYear - (monthDays isLeapYear).getD
        (monthOfDay (monthDays isLeapYear) dayOfTheYear - 1) 0) := by
  have hall : ∀ isLeapYear, ∀ d < if isLeapYear then 366 else 365,
      let month := monthOfDay (monthDays isLeapYear) (d : Nat)
      let day := (d : Int) - (monthDays isLeapYear).getD (month - 1) 0
      1 ≤ month ∧ month ≤ 12 ∧ 1 ≤ day ∧ day ≤ 31 ∧ dayOfYear isLeapYear month day = d := by
    decide +kernel
  obtain ⟨hmonth, hmonth', hday, hday', htotal⟩ := hall isLeapYear dayOfTheYear h
  exact ⟨hmonth, hmonth', hday, hday', htotal⟩

/-! ## The date of a time stamp -/

/-- The seconds between the beginnings of 1900 and of 1970. -/
def epoch : Int := secondsPerYear * 70 + 17 * secondsPerDay

/-- The date with these years since 1900, seconds of the year and nanoseconds. -/
def ofYearSplit (years rest nanoSeconds : Int) : DateTime :=
  let isLeapYear := yearIsLeap (years + 1900)
  let dayOfTheYear := rest / secondsPerDay
  let seconds := rest - dayOfTheYear * secondsPerDay
  let month := monthOfDay (monthDays isLeapYear) dayOfTheYear
  let hours := seconds / 3600
  let minutes := (seconds - hours * 3600) / 60
  { year := years + 1900
    month := month
    day := dayOfTheYear - (monthDays isLeapYear).getD (month - 1) 0
    hours := hours
    minutes := minutes
    seconds := seconds - hours * 3600 - minutes * 60
    nanoSeconds := nanoSeconds
    timeZone := 0 }

theorem fromTimeStamp_eq (ts : TimeStamp) :
    fromTimeStamp ts =
      if ts.toSeconds < 0 ∧ ts.toSeconds < -2147483648 then none
      else
        some (ofYearSplit (splitYear (ts.toSeconds + epoch)).1
          (splitYear (ts.toSeconds + epoch)).2 (ts.nanoSeconds.toInt.tmod 1000000000)) := by
  simp only [fromTimeStamp, ofYearSplit, splitYear, epoch, monthDays]
  congr 1

theorem elapsedDaysSince1900_eq (date : DateTime) :
    date.elapsedDaysSince1900 =
      dayOfYear (yearIsLeap date.year) date.month date.day + (date.year - 1900) * 365 +
        elapsedLeapYearsSince1900 date.year := rfl

/-- The seconds since 1900 that `ToTimeStamp` counts for a date. -/
def secondsOf (date : DateTime) : Int :=
  date.elapsedDaysSince1900 * (24 * 60 * 60) + date.hours * (60 * 60) + date.minutes * 60 +
    date.seconds

structure Denotes (date : DateTime) (seconds : Int) : Prop where
  valid : ∀ nanoSeconds, 0 ≤ nanoSeconds → nanoSeconds ≤ 999999999 →
    ({ date with nanoSeconds := nanoSeconds } : DateTime).checkDate = true
  utc : date.timeZone = 0
  total : date.secondsOf = seconds

theorem denotes_ofYearSplit {seconds years rest : Int} (h : YearSplit seconds years rest)
    (nanoSeconds : Int) : (ofYearSplit years rest nanoSeconds).Denotes seconds := by
  obtain ⟨hafter, hbefore, hnonneg, hwithin, htotal⟩ := h
  have hspd : secondsPerDay = 86400 := rfl
  obtain ⟨day, hday⟩ := Int.eq_ofNat_of_zero_le (show 0 ≤ rest / 86400 by omega)
  have hsplit : MonthSplit (yearIsLeap (years + 1900)) day
      (monthOfDay (monthDays (yearIsLeap (years + 1900))) day)
      (day - (monthDays (yearIsLeap (years + 1900))).getD
        (monthOfDay (monthDays (yearIsLeap (years + 1900))) day - 1) 0) := by
    refine month_spec _ ?_
    rw [yearLength] at hwithin
    split at hwithin
    · rename_i hleap
      rw [if_pos hleap]
      omega
    · rename_i hleap
      rw [if_neg hleap]
      omega
  obtain ⟨hmonth, hmonth', hmday, hmday', hdays⟩ := hsplit
  constructor
  · intro n hn hn'
    rw [checkDate_iff]
    simp only [ofYearSplit, hspd, hday]
    omega
  · rfl
  · rw [secondsOf, elapsedDaysSince1900_eq]
    simp only [ofYearSplit, hspd, hday, hdays, htotal]
    omega

/-! ## Time stamps -/

theorem toInt_eq (ts : TimeStamp) :
    ts.nanoSeconds.toInt =
      ts.toSeconds * 1000000000 + ts.nanoSeconds.toInt.tmod 1000000000 := by
  rw [TimeStamp.toSeconds, Int.mul_comm, Int.mul_tdiv_add_tmod]

theorem toSeconds_le (ts : TimeStamp) : ts.toSeconds ≤ 9223372036 := by
  have heq := toInt_eq ts
  have hlt := ts.nanoSeconds.toInt_lt
  rcases Int.lt_or_le ts.nanoSeconds.toInt 0 with hneg | hpos
  · have hmod := Int.lt_tmod_of_pos ts.nanoSeconds.toInt (show (0 : Int) < 1000000000 by decide)
    omega
  · have hmod := Int.tmod_nonneg 1000000000 hpos
    omega

theorem denotes_fromTimeStamp {ts : TimeStamp} {date : DateTime}
    (h : fromTimeStamp ts = some date) :
    date.Denotes (ts.toSeconds + epoch) ∧
      date.nanoSeconds = ts.nanoSeconds.toInt.tmod 1000000000 := by
  have hepoch : epoch = 2208988800 := by decide
  have hle := toSeconds_le ts
  rw [fromTimeStamp_eq] at h
  split at h
  · cases h
  · cases h
    exact ⟨denotes_ofYearSplit (splitYear_spec (by omega) (by omega)) _, rfl⟩

/-- `CheckDate` rejects the date of a time stamp only for a fraction of a second
before 1970. -/
theorem checkDate_fromTimeStamp {ts : TimeStamp} {date : DateTime}
    (h : fromTimeStamp ts = some date) :
    date.checkDate = true ↔ 0 ≤ ts.nanoSeconds.toInt.tmod 1000000000 := by
  obtain ⟨⟨hvalid, -, -⟩, hnano⟩ := denotes_fromTimeStamp h
  have hlt := Int.tmod_lt_of_pos ts.nanoSeconds.toInt (show (0 : Int) < 1000000000 by decide)
  constructor
  · intro hcheck
    obtain ⟨-, -, -, -, -, -, hnano', -⟩ := (checkDate_iff date).mp hcheck
    omega
  · intro hnonneg
    exact hvalid date.nanoSeconds (by omega) (by omega)

/-- `ToTimeStamp` counts the nanoseconds since 1970. -/
theorem Denotes.toTimeStamp {date : DateTime} {seconds nanoSeconds : Int}
    (h : date.Denotes seconds) (hlow : 0 ≤ nanoSeconds) (hhigh : nanoSeconds ≤ 999999999) :
    ({ date with nanoSeconds := nanoSeconds } : DateTime).toTimeStamp =
      some ⟨Int64.ofInt ((seconds - epoch) * 1000000000 + nanoSeconds)⟩ := by
  obtain ⟨hvalid, hutc, htotal⟩ := h
  have hsame : ({ date with nanoSeconds := nanoSeconds } : DateTime).elapsedDaysSince1900 =
      date.elapsedDaysSince1900 := rfl
  rw [DateTime.toTimeStamp, hvalid _ hlow hhigh, hsame]
  rw [secondsOf] at htotal
  simp only [Bool.not_true, Bool.false_eq_true, if_false, hutc, htotal, epoch, Int.zero_mul,
    Int.sub_zero]

/-- A time stamp that has a valid date is the time stamp of that date. -/
theorem toTimeStamp_fromTimeStamp {ts : TimeStamp} {date : DateTime}
    (h : fromTimeStamp ts = some date) (hvalid : date.checkDate = true) :
    date.toTimeStamp = some ts := by
  obtain ⟨hdenotes, hnano⟩ := denotes_fromTimeStamp h
  obtain ⟨-, -, -, -, -, -, hnano', -⟩ := (checkDate_iff date).mp hvalid
  have hcount : ts.toSeconds * 1000000000 + date.nanoSeconds = ts.nanoSeconds.toInt := by
    rw [hnano, ← toInt_eq]
  have hstamp := hdenotes.toTimeStamp hnano'.1 hnano'.2
  rw [Int.add_sub_cancel, hcount, Int64.ofInt_toInt] at hstamp
  exact hstamp

/-- Half a second into the third of January 1970. -/
theorem toTimeStamp_fromTimeStamp_january :
    (⟨1970, 1, 3, 0, 0, 0, 500000000, 0⟩ : DateTime).toTimeStamp = some ⟨172800500000000⟩ :=
  toTimeStamp_fromTimeStamp (by decide) (by decide)

/-- The text of a time stamp's date reads back as the time stamp, less its
fraction of a second. -/
theorem toTimeStamp_fromString {ts : TimeStamp} {date : DateTime}
    (h : fromTimeStamp ts = some date) (hvalid : date.checkDate = true) :
    (fromString date.toString).bind toTimeStamp = some ts.truncated := by
  have hstamp := (denotes_fromTimeStamp h).1.toTimeStamp (Int.le_refl 0)
    (Int.natCast_nonneg 999999999)
  rw [Int.add_sub_cancel, Int.add_zero] at hstamp
  rw [fromString_toString hvalid]
  exact hstamp

end DateTime
end Neptune
end MediaServer
