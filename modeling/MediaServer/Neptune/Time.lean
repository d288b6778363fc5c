/-
Dates: `NPT_TimeStamp` and the part of `NPT_DateTime` that writes RFC 1123.

The calendar computation is the one of `NPT_DateTime::FromTimeStamp` without a
local time zone.  A stamp before 1970 with a fraction of a second gives a date
with negative nanoseconds, which `CheckDate` rejects, and `toString` is then
empty.  The fields are `NPT_Int32` there, and no value below leaves that range:
the seconds of a 64-bit count of nanoseconds stay below ten thousand million.
-/
import MediaServer.Neptune.Headers

namespace MediaServer
namespace Neptune

open Text

structure TimeStamp where
  nanoSeconds : Int64

/-- `NPT_TimeStamp::ToSeconds`, which truncates toward zero. -/
def TimeStamp.toSeconds (ts : TimeStamp) : Int := ts.nanoSeconds.toInt.tdiv 1000000000

structure DateTime where
  year : Int
  month : Int
  day : Int
  hours : Int
  minutes : Int
  seconds : Int
  nanoSeconds : Int
  timeZone : Int
  deriving DecidableEq

namespace DateTime

def timeDaysShort : List Str :=
  ["Sun".toList, "Mon".toList, "Tue".toList, "Wed".toList, "Thu".toList, "Fri".toList,
    "Sat".toList]

def timeMonths : List Str :=
  ["Jan".toList, "Feb".toList, "Mar".toList, "Apr".toList, "May".toList, "Jun".toList,
    "Jul".toList, "Aug".toList, "Sep".toList, "Oct".toList, "Nov".toList, "Dec".toList]

def timeMonthDay : List Int := [-1, 30, 58, 89, 119, 150, 180, 211, 242, 272, 303, 333, 364]

def timeMonthDayLeap : List Int := [-1, 30, 59, 90, 120, 151, 181, 212, 243, 273, 304, 334, 365]

def timeElapsedDaysAtMonth : List Int :=
  [0, 31, 59, 90, 120, 151, 181, 212, 243, 273, 304, 334, 365]

def secondsPerDay : Int := 24 * 60 * 60

def secondsPerYear : Int := 365 * secondsPerDay

def yearMin : Int := 1901

def yearMax : Int := 2262

def yearIsLeap (year : Int) : Bool :=
  (year % 4 = 0 && year % 100 ≠ 0) || year % 400 = 0

/-- `ElapsedLeapYearsSince1900`, the current year not included. -/
def elapsedLeapYearsSince1900 (year : Int) : Int :=
  if year < 1901 then 0
  else
    let yearsSince1900 := year - 1 - 1900
    yearsSince1900 / 4 - yearsSince1900 / 100 + (yearsSince1900 + 300) / 400

def elapsedDaysSince1900 (date : DateTime) : Int :=
  let dayCount := timeElapsedDaysAtMonth.getD (date.month - 1).toNat 0 + date.day - 1
  let dayCount := if yearIsLeap date.year && date.month > 2 then dayCount + 1 else dayCount
  dayCount + (date.year - 1900) * 365 + elapsedLeapYearsSince1900 date.year

def default : DateTime :=
  { year := 1970, month := 1, day := 1, hours := 0, minutes := 0, seconds := 0,
    nanoSeconds := 0, timeZone := 0 }

/-- The loop of `FromTimeStamp` over the months: the first one that does not end
before the given day of the year. -/
def monthOfDay (monthDay : List Int) (dayOfTheYear : Int) : Nat :=
  1 + monthDay.tail.findIdx fun last => dayOfTheYear ≤ last

/-- `NPT_DateTime::FromTimeStamp` without a local time zone; `none` is
`NPT_ERROR_OUT_OF_RANGE`. -/
def fromTimeStamp (ts : TimeStamp) : Option DateTime :=
  let seconds := ts.toSeconds
  -- Negative seconds are only accepted when they fit 32 bits.
  if seconds < 0 ∧ seconds < -2147483648 then none
  else
    let seconds := seconds + (secondsPerYear * 70 + 17 * secondsPerDay)
    let yearsSince1900 := seconds / secondsPerYear
    let seconds := seconds - yearsSince1900 * secondsPerYear
    let leapYearsSince1900 := elapsedLeapYearsSince1900 (yearsSince1900 + 1900)
    let back := seconds < leapYearsSince1900 * secondsPerDay
    -- Not enough seconds in the current year to compensate: one year back.
    let yearsSince1900 := if back then yearsSince1900 - 1 else yearsSince1900
    let isLeapYear := yearIsLeap (yearsSince1900 + 1900)
    let seconds :=
      if back then
        let seconds := seconds + secondsPerYear - leapYearsSince1900 * secondsPerDay
        if isLeapYear then seconds + secondsPerDay else seconds
      else seconds - leapYearsSince1900 * secondsPerDay
    let dayOfTheYear := seconds / secondsPerDay
    let seconds := seconds - dayOfTheYear * secondsPerDay
    let monthDay := if isLeapYear then timeMonthDayLeap else timeMonthDay
    let month := monthOfDay monthDay dayOfTheYear
    let hours := seconds / 3600
    let seconds := seconds - hours * 3600
    let minutes := seconds / 60
    some
      { year := yearsSince1900 + 1900
        month := month
        day := dayOfTheYear - monthDay.getD (month - 1) 0
        hours := hours
        minutes := minutes
        seconds := seconds - minutes * 60
        nanoSeconds := ts.nanoSeconds.toInt.tmod 1000000000
        timeZone := 0 }

def checkBounds (var low high : Int) : Bool := low ≤ var && var ≤ high

def checkDate (date : DateTime) : Bool :=
  checkBounds date.year yearMin yearMax &&
  checkBounds date.month 1 12 &&
  checkBounds date.day 1 31 &&
  checkBounds date.hours 0 23 &&
  checkBounds date.minutes 0 59 &&
  checkBounds date.seconds 0 59 &&
  checkBounds date.nanoSeconds 0 999999999 &&
  checkBounds date.timeZone (-12 * 60) (12 * 60)

/-- `AppendNumber`: the last `digitCount` decimal digits. -/
def appendNumber (number : Nat) : Nat → Str
  | 0 => []
  | digitCount + 1 => appendNumber (number / 10) digitCount ++ [Nat.digitChar (number % 10)]

/-- `NPT_DateTime::ToString(FORMAT_RFC_1123)`. -/
def toString (date : DateTime) : Str :=
  if !date.checkDate then []
  else
    let days := date.elapsedDaysSince1900
    timeDaysShort.getD ((days + 1) % 7).toNat [] ++ ", ".toList ++
    appendNumber date.day.toNat 2 ++ " ".toList ++
    timeMonths.getD (date.month - 1).toNat [] ++ " ".toList ++
    appendNumber date.year.toNat 4 ++ " ".toList ++
    appendNumber date.hours.toNat 2 ++ ":".toList ++
    appendNumber date.minutes.toNat 2 ++ ":".toList ++
    appendNumber date.seconds.toNat 2 ++
    (if date.timeZone = 0 then " GMT".toList
    else if 0 < date.timeZone then
      " +".toList ++ appendNumber (date.timeZone / 60).toNat 2 ++
        appendNumber (date.timeZone % 60).toNat 2
    else
      " -".toList ++ appendNumber (-date.timeZone / 60).toNat 2 ++
        appendNumber (-date.timeZone % 60).toNat 2)

/-! ## A date stays on one line -/

theorem oneLine_appendNumber (number digitCount : Nat) :
    OneLine (appendNumber number digitCount) := by
  induction digitCount generalizing number with
  | zero =>
    show OneLine []
    decide
  | succ digitCount ih =>
    have hdigit : ∀ d < 10, OneLine [Nat.digitChar d] := by decide
    exact (ih _).append (hdigit _ (Nat.mod_lt _ (by decide)))

theorem oneLine_getD {table : List Str} (h : ∀ s ∈ table, OneLine s) (i : Nat) :
    OneLine (table.getD i []) := by
  rw [List.getD_eq_getElem?_getD]
  cases hi : table[i]? with
  | none => decide
  | some s => exact h s (List.mem_of_getElem? hi)

theorem oneLine_toString (date : DateTime) : OneLine date.toString := by
  have hdays : ∀ s ∈ timeDaysShort, OneLine s := by decide
  have hmonths : ∀ s ∈ timeMonths, OneLine s := by decide
  have hzone : OneLine (if date.timeZone = 0 then " GMT".toList
      else if 0 < date.timeZone then
        " +".toList ++ appendNumber (date.timeZone / 60).toNat 2 ++
          appendNumber (date.timeZone % 60).toNat 2
      else
        " -".toList ++ appendNumber (-date.timeZone / 60).toNat 2 ++
          appendNumber (-date.timeZone % 60).toNat 2) := by
    have hdigits (sign : Str) (hsign : OneLine sign) (h m : Nat) :
        OneLine (sign ++ appendNumber h 2 ++ appendNumber m 2) :=
      (hsign.append (oneLine_appendNumber h 2)).append (oneLine_appendNumber m 2)
    split
    · decide
    · split
      · exact hdigits _ (by decide) _ _
      · exact hdigits _ (by decide) _ _
  have hnumber (number digitCount : Nat) {piece : Str} (hpiece : OneLine piece) :
      OneLine (appendNumber number digitCount ++ piece) :=
    (oneLine_appendNumber number digitCount).append hpiece
  rw [toString]
  split
  · decide
  · simp only [List.append_assoc]
    refine (oneLine_getD hdays _).append (.append (by decide) (hnumber _ _ ?_))
    refine .append (by decide) ((oneLine_getD hmonths _).append (.append (by decide) ?_))
    refine hnumber _ _ (.append (by decide) (hnumber _ _ (.append (by decide) ?_)))
    exact hnumber _ _ (.append (by decide) (hnumber _ _ hzone))

end DateTime
end Neptune
end MediaServer
