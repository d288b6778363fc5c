/-
Reading dates back: `NPT_DateTime::FromString` and `NPT_DateTime::ToTimeStamp`.

`fromString` is the case `FORMAT_RFC_1123`.  The source works on a copy of the
text and overwrites each separator with a terminator, so that a field is the C
string at its position.  The model has one function for each of its three parts:
`fromString` splits off the weekday and the time zone, `parseFields` checks the
positions, and `dateOfFields` reads the fields.  The fields a date had before do
not matter, and the different errors are not told apart.

`fromString_toString` is the round trip for every date that `CheckDate` accepts,
with any time zone, less its nanoseconds.
-/
import MediaServer.Neptune.Integers
import MediaServer.Neptune.Time

namespace MediaServer
namespace Neptune

open Text

namespace DateTime

/-! ## The parser -/

/-- `MatchString`: the position of a string in a list, or -1. -/
def matchString (string : Str) (list : List Str) : Int :=
  match list.findIdx? (fun name => string == name) with
  | some i => i
  | none => -1

def charAt (input : Str) (i : Nat) : Char := input.getD i '\x00'

/-- The C string at a position. -/
def textAt (input : Str) (i : Nat) : Str := cString (input.drop i)

def terminate (input : Str) (positions : List Nat) : Str :=
  positions.foldl (fun input i => input.set i '\x00') input

/-- A time zone of one letter. -/
def letterZone (c : Char) : Option Int :=
  if 'A' ≤ c ∧ c ≤ 'I' then some (-60 * (1 + difference c 'A'))
  else if 'K' ≤ c ∧ c ≤ 'M' then some (-60 * difference c 'A')
  else if 'N' ≤ c ∧ c ≤ 'Y' then some (60 * (1 + difference c 'N'))
  else none

/-- A time zone of a sign and four digits, hours and minutes. -/
def numericZone (timezone : Str) : Option Int :=
  let zone (sign : Int) : Option Int :=
    match parseUnsigned timezone.tail false with
    | none => none
    | some tz =>
      if 59 < tz / 100 ∨ 59 < tz % 100 then none
      else some (sign * (tz / 100 * 60 + tz % 100 : Nat))
  if first timezone = '-' then zone (-1)
  else if first timezone = '+' then zone 1
  else none

def parseTimeZone (timezone : Str) : Option Int :=
  if timezone = "GMT".toList ∨ timezone = "UT".toList ∨ timezone = "Z".toList then some 0
  else if timezone = "EDT".toList then some (-4 * 60)
  else if timezone = "EST".toList ∨ timezone = "CDT".toList then some (-5 * 60)
  else if timezone = "CST".toList ∨ timezone = "MDT".toList then some (-6 * 60)
  else if timezone = "MST".toList ∨ timezone = "PDT".toList then some (-7 * 60)
  else if timezone = "PST".toList then some (-8 * 60)
  else if timezone.length = 1 then letterZone (first timezone)
  else if timezone.length = 5 then numericZone timezone
  else none

/-- A month that is not in the table is month 0, which `CheckDate` rejects. -/
def dateOfFields (yl : Nat) (wday day month year hours minutes seconds timezone : Str) :
    Option DateTime :=
  match parseInteger day false, parseInteger year false, parseInteger hours false,
    parseInteger minutes false, parseInteger seconds false, parseTimeZone timezone with
  | some day, some year, some hours, some minutes, some seconds, some timeZone =>
    let date : DateTime :=
      { year := if yl = 2 then year + 1900 else year
        month := 1 + matchString month timeMonths
        day := day
        hours := hours
        minutes := minutes
        seconds := seconds
        nanoSeconds := 0
        timeZone := timeZone }
    if (date.elapsedDaysSince1900 + 1) % 7 ≠ matchString wday timeDaysShort then none
    else if date.checkDate then some date
    else none
  | _, _, _, _, _, _ => none

/-- `input` is the text between the comma and the last space.  The source counts
that space in `input_size`. -/
def parseFields (wday input timezone : Str) : Option DateTime :=
  let inputSize := input.length + 1
  if inputSize < 20 then none
  else
    let yl := inputSize - 18
    if yl ≠ 2 ∧ yl ≠ 4 then none
    else if charAt input 0 ≠ ' ' ∨ charAt input 3 ≠ ' ' ∨ charAt input 7 ≠ ' ' ∨
        charAt input (8 + yl) ≠ ' ' ∨ charAt input (11 + yl) ≠ ':' ∨
        charAt input (14 + yl) ≠ ':' then none
    else
      let input := terminate input [3, 7, 8 + yl, 11 + yl, 14 + yl]
      dateOfFields yl wday (textAt input 1) (textAt input 4) (textAt input 8)
        (textAt input (9 + yl)) (textAt input (12 + yl)) (textAt input (15 + yl)) timezone

/-- `NPT_DateTime::FromString(FORMAT_RFC_1123)`; `none` is any of its errors. -/
def fromString (date : Str) : Option DateTime :=
  let workspace := cString date
  if workspace.length < 26 then none
  else
    let wday := workspace.takeWhile (· ≠ ',')
    match workspace.dropWhile (· ≠ ',') with
    | [] => none
    | _ :: input =>
      if wday = [] then none
      else
        let timezoneSize := (input.reverse.takeWhile (· ≠ ' ')).length
        let inputSize := input.length - timezoneSize
        if inputSize = 0 then none
        else parseFields wday (input.take (inputSize - 1)) (input.drop inputSize)

/-- `NPT_DateTime::ToTimeStamp`. -/
def toTimeStamp (date : DateTime) : Option TimeStamp :=
  if !date.checkDate then none
  else
    let seconds := date.elapsedDaysSince1900 * (24 * 60 * 60) + date.hours * (60 * 60) +
      date.minutes * 60 + date.seconds
    let seconds := seconds - date.timeZone * 60
    let seconds := seconds - (secondsPerYear * 70 + 17 * secondsPerDay)
    some ⟨Int64.ofInt (seconds * 1000000000 + date.nanoSeconds)⟩

/-! ## Numbers -/

/-- A reader that a digit takes from `value` to `10 * value + digit` reads all the
digits that `appendNumber` writes, as long as the value stays below a bound. -/
theorem read_appendNumber {β : Type} (read : Str → Nat → Bool → β) {bound : Nat}
    (hread : ∀ d < 10, ∀ value < bound, ∀ empty str,
      read (Nat.digitChar d :: str) value empty = read str (10 * value + d) false)
    (number k value : Nat) (empty : Bool) (str : Str) (hbound : (value + 1) * 10 ^ k ≤ bound) :
    read (appendNumber number (k + 1) ++ str) value empty =
      read str (value * 10 ^ (k + 1) + number % 10 ^ (k + 1)) false := by
  induction k generalizing number str with
  | zero =>
    rw [appendNumber, appendNumber, List.nil_append, List.singleton_append,
      hread _ (Nat.mod_lt _ (by decide)) _ (by omega)]
    congr 1
    omega
  | succ k ih =>
    have hmod := Nat.mod_lt (number / 10) (Nat.pow_pos (n := k + 1) (show 0 < 10 by decide))
    have hvalue : value * 10 ^ (k + 1) + number / 10 % 10 ^ (k + 1) < bound := by
      rw [Nat.add_mul, Nat.one_mul] at hbound
      omega
    have hfewer : (value + 1) * 10 ^ k ≤ bound :=
      (Nat.mul_le_mul_left _ (Nat.pow_le_pow_right (by decide) (Nat.le_succ k))).trans hbound
    rw [appendNumber, List.append_assoc, List.singleton_append, ih (number / 10) _ hfewer,
      hread _ (Nat.mod_lt _ (by decide)) _ hvalue]
    congr 1
    rw [Nat.pow_succ' (n := k + 1), Nat.mod_mul, Nat.mul_left_comm]
    omega

theorem isDigit_of_mem_appendNumber {number k : Nat} {c : Char}
    (h : c ∈ appendNumber number k) : isDigit c = true := by
  induction k generalizing number with
  | zero => cases h
  | succ k ih =>
    rw [appendNumber, List.mem_append, List.mem_singleton] at h
    rcases h with h | h
    · exact ih h
    · rw [h]
      exact (isDigit_digitChar _ (Nat.mod_lt _ (by decide))).1

theorem notMem_appendNumber {number k : Nat} {c : Char} (h : isDigit c = false) :
    c ∉ appendNumber number k := by
  intro hmem
  rw [isDigit_of_mem_appendNumber hmem] at h
  cases h

theorem length_appendNumber (number k : Nat) : (appendNumber number k).length = k := by
  induction k generalizing number with
  | zero => rfl
  | succ k ih => rw [appendNumber, List.length_append, ih, List.length_singleton]

theorem exists_appendNumber_cons (number k : Nat) :
    ∃ c str, isDigit c = true ∧ appendNumber number (k + 1) = c :: str := by
  cases h : appendNumber number (k + 1) with
  | nil =>
    have hlen := length_appendNumber number (k + 1)
    rw [h] at hlen
    cases hlen
  | cons c str =>
    have hmem : c ∈ appendNumber number (k + 1) := by
      rw [h]
      exact List.mem_cons_self
    exact ⟨c, str, isDigit_of_mem_appendNumber hmem, rfl⟩

theorem integerStart_appendNumber (number k : Nat) :
    integerStart (appendNumber number k) false = appendNumber number k :=
  cString_eq_self (notMem_appendNumber rfl)

theorem mod_pow_lt (number : Nat) {k : Nat} (hk : k < 9) : number % 10 ^ (k + 1) < 10 ^ 9 :=
  (Nat.mod_lt _ (Nat.pow_pos (by decide))).trans_le (Nat.pow_le_pow_right (by decide) hk)

/-- What a reader makes of a whole number of at most nine digits. -/
theorem read_number {β : Type} (read : Str → Nat → Bool → β)
    (hread : ∀ d < 10, ∀ value < 10 ^ 17, ∀ empty str,
      read (Nat.digitChar d :: str) value empty = read str (10 * value + d) false)
    (number : Nat) {k : Nat} (hk : k < 9) :
    read (appendNumber number (k + 1)) 0 true = read [] (number % 10 ^ (k + 1)) false := by
  have hpow : 10 ^ k ≤ 10 ^ 8 := Nat.pow_le_pow_right (by decide) (by omega)
  have hall := read_appendNumber read hread number k 0 true [] (by omega)
  rw [List.append_nil, Nat.zero_mul, Nat.zero_add] at hall
  exact hall

theorem parseInteger64_appendNumber (number : Nat) {k : Nat} (hk : k < 9) :
    parseInteger64 (appendNumber number (k + 1)) false =
      some (Int64.ofNat (number % 10 ^ (k + 1))) := by
  obtain ⟨c, str, hc, heq⟩ := exists_appendNumber_cons number k
  have hminus : c ≠ '-' := fun e => absurd (e ▸ hc) (by decide)
  have hplus : c ≠ '+' := fun e => absurd (e ▸ hc) (by decide)
  have hdigits := read_number
    (fun str value empty => parseDigits false false str (Int64.ofNat value) empty)
    (fun d hd value hvalue empty str => parseDigits_digit hd hvalue false false empty str)
    number hk
  rw [parseInteger64, integerStart_appendNumber, heq]
  simp only [hminus, hplus, if_false]
  rw [← heq]
  exact hdigits

theorem parseInteger_appendNumber (number : Nat) {k : Nat} (hk : k < 9) :
    parseInteger (appendNumber number (k + 1)) false =
      some ((number % 10 ^ (k + 1) : Nat) : Int) := by
  have hlt := mod_pow_lt number hk
  have hrange : ¬ (Int64.ofNat (number % 10 ^ (k + 1)) < -2147483648 ∨
      2147483647 < Int64.ofNat (number % 10 ^ (k + 1))) := by
    rw [Int64.lt_iff_toInt_lt, Int64.lt_iff_toInt_lt, toInt_ofNat_small (by omega)]
    show ¬ ((_ : Int) < -2147483648 ∨ (2147483647 : Int) < _)
    omega
  rw [parseInteger, parseInteger64_appendNumber number hk]
  simp only [hrange, if_false]
  rw [toInt_ofNat_small (by omega)]

theorem parseUnsigned64_appendNumber (number : Nat) {k : Nat} (hk : k < 9) :
    parseUnsigned64 (appendNumber number (k + 1)) false =
      some (UInt64.ofNat (number % 10 ^ (k + 1))) := by
  obtain ⟨c, str, -, heq⟩ := exists_appendNumber_cons number k
  have hdigits := read_number
    (fun str value empty => parseUnsignedDigits false str (UInt64.ofNat value) empty)
    (fun d hd value hvalue empty str => parseUnsignedDigits_digit hd hvalue false empty str)
    number hk
  rw [parseUnsigned64, integerStart_appendNumber, heq]
  rw [heq] at hdigits
  exact hdigits

theorem parseUnsigned_appendNumber (number : Nat) {k : Nat} (hk : k < 9) :
    parseUnsigned (appendNumber number (k + 1)) false = some (number % 10 ^ (k + 1)) := by
  have hlt := mod_pow_lt number hk
  have hrange : ¬ 4294967295 < UInt64.ofNat (number % 10 ^ (k + 1)) := by
    rw [UInt64.lt_iff_toNat_lt, toNat_ofNat_small (by omega)]
    show ¬ 4294967295 < _
    omega
  rw [parseUnsigned, parseUnsigned64_appendNumber number hk]
  simp only [hrange, if_false]
  rw [toNat_ofNat_small (by omega)]

theorem appendNumber_append (a b k j : Nat) :
    appendNumber a k ++ appendNumber b j = appendNumber (a * 10 ^ j + b % 10 ^ j) (k + j) := by
  induction j generalizing b with
  | zero =>
    rw [Nat.pow_zero, Nat.mod_one, Nat.mul_one, appendNumber, List.append_nil]
    rfl
  | succ j ih =>
    have hsplit : (a * 10 ^ (j + 1) + b % 10 ^ (j + 1)) =
        10 * (a * 10 ^ j + b / 10 % 10 ^ j) + b % 10 := by
      rw [Nat.pow_succ' (n := j), Nat.mod_mul, Nat.mul_left_comm]
      omega
    rw [hsplit, ← Nat.add_assoc, appendNumber, appendNumber, ← List.append_assoc, ih]
    congr 2
    · omega
    · congr 1
      omega

/-! ## The time zone -/

/-- The time zone as `toString` writes it. -/
def zoneText (timeZone : Int) : Str :=
  if timeZone = 0 then "GMT".toList
  else if 0 < timeZone then
    '+' :: (appendNumber (timeZone / 60).toNat 2 ++ appendNumber (timeZone % 60).toNat 2)
  else
    '-' :: (appendNumber (-timeZone / 60).toNat 2 ++ appendNumber (-timeZone % 60).toNat 2)

theorem parseTimeZone_numeric {timezone : Str} (hlen : timezone.length = 5)
    (hsign : first timezone = '+' ∨ first timezone = '-') :
    parseTimeZone timezone = numericZone timezone := by
  have hne (name : Str) (hname : first name ≠ '+' ∧ first name ≠ '-') : timezone ≠ name := by
    intro heq
    rw [heq] at hsign
    exact hsign.elim hname.1 hname.2
  rw [parseTimeZone]
  simp only [hne "GMT".toList (by decide), hne "UT".toList (by decide),
    hne "Z".toList (by decide), hne "EDT".toList (by decide), hne "EST".toList (by decide),
    hne "CDT".toList (by decide), hne "CST".toList (by decide), hne "MDT".toList (by decide),
    hne "MST".toList (by decide), hne "PDT".toList (by decide), hne "PST".toList (by decide),
    hlen, or_self, if_false, if_true, show ¬ 5 = 1 by decide]

theorem numericZone_digits {c : Char} {sign : Int}
    (hsign : c = '+' ∧ sign = 1 ∨ c = '-' ∧ sign = -1) {z : Int} (hz : 0 ≤ z)
    (hz' : z ≤ 12 * 60) :
    numericZone (c :: (appendNumber (z / 60).toNat 2 ++ appendNumber (z % 60).toNat 2)) =
      some (sign * z) := by
  have hnumber :
      parseUnsigned (appendNumber (z / 60).toNat 2 ++ appendNumber (z % 60).toNat 2) false =
        some ((z / 60).toNat * 100 + (z % 60).toNat) := by
    rw [appendNumber_append, parseUnsigned_appendNumber _ (by decide)]
    congr 1
    omega
  have hbounds : ¬ (59 < ((z / 60).toNat * 100 + (z % 60).toNat) / 100 ∨
      59 < ((z / 60).toNat * 100 + (z % 60).toNat) % 100) := by omega
  have hvalue : ((((z / 60).toNat * 100 + (z % 60).toNat) / 100 * 60 +
      ((z / 60).toNat * 100 + (z % 60).toNat) % 100 : Nat) : Int) = z := by omega
  unfold numericZone
  rcases hsign with ⟨rfl, rfl⟩ | ⟨rfl, rfl⟩
  · simp only [first, List.headD_cons, List.tail_cons, hnumber, hbounds, hvalue, if_false,
      if_true, show ¬ '+' = '-' by decide]
  · simp only [first, List.headD_cons, List.tail_cons, hnumber, hbounds, hvalue, if_false,
      if_true]

theorem parseTimeZone_zoneText {timeZone : Int} (hlow : -(12 * 60) ≤ timeZone)
    (hhigh : timeZone ≤ 12 * 60) : parseTimeZone (zoneText timeZone) = some timeZone := by
  rw [zoneText]
  split
  · rename_i hzero
    rw [hzero]
    decide
  · split
    · rw [parseTimeZone_numeric (by simp [length_appendNumber]) (.inl rfl),
        numericZone_digits (.inl ⟨rfl, rfl⟩) (by omega) hhigh, Int.one_mul]
    · rw [parseTimeZone_numeric (by simp [length_appendNumber]) (.inr rfl),
        numericZone_digits (.inr ⟨rfl, rfl⟩) (by omega) (by omega)]
      congr 1
      omega

theorem length_zoneText (timeZone : Int) :
    (zoneText timeZone).length = 3 ∨ (zoneText timeZone).length = 5 := by
  rw [zoneText]
  split
  · exact .inl rfl
  · split
    · exact .inr (by simp [length_appendNumber])
    · exact .inr (by simp [length_appendNumber])

theorem notMem_zoneText {c : Char} (hc : c = ' ' ∨ c = '\x00') (timeZone : Int) :
    c ∉ zoneText timeZone := by
  have hdigit : isDigit c = false := by rcases hc with rfl | rfl <;> decide
  have hsigns : c ≠ '+' ∧ c ≠ '-' ∧ c ∉ "GMT".toList := by rcases hc with rfl | rfl <;> decide
  have hdigits (number : Nat) : c ∉ appendNumber number 2 := notMem_appendNumber hdigit
  rw [zoneText]
  split
  · exact hsigns.2.2
  · split
    · simp [hsigns.1, hdigits]
    · simp [hsigns.2.1, hdigits]

/-! ## Reading inverts writing -/

/-- The weekday that `toString` writes. -/
def weekday (date : DateTime) : Str :=
  timeDaysShort.getD ((date.elapsedDaysSince1900 + 1) % 7).toNat []

def monthName (date : DateTime) : Str := timeMonths.getD (date.month - 1).toNat []

/-- The text between the comma and the time zone. -/
def middle (date : DateTime) : Str :=
  ' ' :: (appendNumber date.day.toNat 2 ++ ' ' :: (date.monthName ++
    ' ' :: (appendNumber date.year.toNat 4 ++ ' ' :: (appendNumber date.hours.toNat 2 ++
      ':' :: (appendNumber date.minutes.toNat 2 ++
        ':' :: appendNumber date.seconds.toNat 2)))))

theorem toString_eq {date : DateTime} (h : date.checkDate = true) :
    date.toString = date.weekday ++ ',' :: (date.middle ++ ' ' :: zoneText date.timeZone) := by
  have hzone : (if date.timeZone = 0 then " GMT".toList
      else if 0 < date.timeZone then
        " +".toList ++ appendNumber (date.timeZone / 60).toNat 2 ++
          appendNumber (date.timeZone % 60).toNat 2
      else
        " -".toList ++ appendNumber (-date.timeZone / 60).toNat 2 ++
          appendNumber (-date.timeZone % 60).toNat 2) = ' ' :: zoneText date.timeZone := by
    rw [zoneText]
    split
    · rfl
    · split <;> rfl
  rw [toString, h, hzone]
  simp only [Bool.not_true, Bool.false_eq_true, if_false, List.append_assoc, middle,
    List.cons_append]
  rfl

theorem fromString_split {wday input zone : Str} (hwday : ',' ∉ wday) (hne : wday ≠ [])
    (hzone : ' ' ∉ zone) (hnul : '\x00' ∉ wday ++ ',' :: (input ++ ' ' :: zone))
    (hlen : 26 ≤ (wday ++ ',' :: (input ++ ' ' :: zone)).length) :
    fromString (wday ++ ',' :: (input ++ ' ' :: zone)) = parseFields wday input zone := by
  have hcomma (c : Char) (hc : c ∈ wday) : decide (c ≠ ',') = true :=
    decide_eq_true fun e => hwday (e ▸ hc)
  have hspace (c : Char) (hc : c ∈ zone.reverse) : decide (c ≠ ' ') = true :=
    decide_eq_true fun e => hzone (List.mem_reverse.mp (e ▸ hc))
  have hsize : ((input ++ ' ' :: zone).reverse.takeWhile (· ≠ ' ')).length = zone.length := by
    rw [List.reverse_append, List.reverse_cons, List.append_assoc,
      List.takeWhile_append_of_pos hspace]
    simp
  rw [fromString, cString_eq_self hnul, if_neg (by omega), List.takeWhile_append_of_pos hcomma,
    List.dropWhile_append_of_pos hcomma]
  simp only [List.takeWhile_cons, List.dropWhile_cons, ne_eq, not_true_eq_false, decide_false,
    Bool.false_eq_true, if_false, List.append_nil, hne, hsize]
  have hinput : (input ++ ' ' :: zone).length - zone.length = input.length + 1 := by
    rw [List.length_append, List.length_cons]
    omega
  rw [hinput, if_neg (by omega), Nat.add_sub_cancel, List.take_left,
    List.drop_length_add_append, List.drop_succ_cons, List.drop_zero]

/-- Only 19 or 21 characters fit between the comma and the time zone. -/
theorem parseFields_of_length {input : Str} (hshort : input.length ≠ 19)
    (hlong : input.length ≠ 21) (wday timezone : Str) :
    parseFields wday input timezone = none := by
  rw [parseFields]
  split
  · rfl
  · rw [if_pos]
    omega

theorem parseFields_eq {day month year hours minutes seconds : Str}
    (hday : day.length = 2) (hmonth : month.length = 3) (hyear : year.length = 4)
    (hhours : hours.length = 2) (hminutes : minutes.length = 2) (hseconds : seconds.length = 2)
    (hnul : '\x00' ∉ day ++ month ++ year ++ hours ++ minutes ++ seconds)
    (wday timezone : Str) :
    parseFields wday (' ' :: (day ++ ' ' :: (month ++ ' ' :: (year ++ ' ' :: (hours ++
      ':' :: (minutes ++ ':' :: seconds)))))) timezone =
      dateOfFields 4 wday day month year hours minutes seconds timezone := by
  obtain ⟨d, d', rfl⟩ := List.length_eq_two.mp hday
  obtain ⟨m, m', m₂, rfl⟩ := List.length_eq_three.mp hmonth
  obtain ⟨h, h', rfl⟩ := List.length_eq_two.mp hhours
  obtain ⟨n, n', rfl⟩ := List.length_eq_two.mp hminutes
  obtain ⟨s, s', rfl⟩ := List.length_eq_two.mp hseconds
  match year, hyear with
  | [y, y', y₂, y₃], _ =>
    simp only [List.cons_append, List.nil_append, List.mem_cons, not_or,
      eq_comm (a := '\x00')] at hnul
    simp [parseFields, charAt, terminate, textAt, cString, hnul]

theorem matchString_month : ∀ i < 12,
    matchString (timeMonths.getD i []) timeMonths = i ∧ (timeMonths.getD i []).length = 3 ∧
      '\x00' ∉ timeMonths.getD i [] := by
  decide

theorem matchString_weekday : ∀ i < 7,
    matchString (timeDaysShort.getD i []) timeDaysShort = i ∧
      (timeDaysShort.getD i []).length = 3 ∧ ',' ∉ timeDaysShort.getD i [] ∧
        '\x00' ∉ timeDaysShort.getD i [] := by
  decide

theorem checkBounds_iff (var low high : Int) :
    checkBounds var low high = true ↔ low ≤ var ∧ var ≤ high := by
  rw [checkBounds, Bool.and_eq_true, decide_eq_true_eq, decide_eq_true_eq]

theorem checkDate_iff (date : DateTime) : date.checkDate = true ↔
    (1901 ≤ date.year ∧ date.year ≤ 2262) ∧ (1 ≤ date.month ∧ date.month ≤ 12) ∧
    (1 ≤ date.day ∧ date.day ≤ 31) ∧ (0 ≤ date.hours ∧ date.hours ≤ 23) ∧
    (0 ≤ date.minutes ∧ date.minutes ≤ 59) ∧ (0 ≤ date.seconds ∧ date.seconds ≤ 59) ∧
    (0 ≤ date.nanoSeconds ∧ date.nanoSeconds ≤ 999999999) ∧
    (-12 * 60 ≤ date.timeZone ∧ date.timeZone ≤ 12 * 60) := by
  simp only [checkDate, Bool.and_eq_true, checkBounds_iff, yearMin, yearMax, and_assoc]

theorem weekday_spec (date : DateTime) :
    matchString date.weekday timeDaysShort = (date.elapsedDaysSince1900 + 1) % 7 ∧
      date.weekday.length = 3 ∧ ',' ∉ date.weekday ∧ '\x00' ∉ date.weekday := by
  obtain ⟨hmatch, hrest⟩ :=
    matchString_weekday ((date.elapsedDaysSince1900 + 1) % 7).toNat (by omega)
  refine ⟨?_, hrest⟩
  rw [weekday, hmatch]
  omega

section RoundTrip

variable {date : DateTime} (h : date.checkDate = true)

include h

theorem monthName_spec :
    1 + matchString date.monthName timeMonths = date.month ∧ date.monthName.length = 3 ∧
      '\x00' ∉ date.monthName := by
  have hdate := (checkDate_iff date).mp h
  obtain ⟨hmatch, hrest⟩ := matchString_month (date.month - 1).toNat (by omega)
  refine ⟨?_, hrest⟩
  rw [monthName, hmatch]
  omega

theorem length_middle : date.middle.length = 21 := by
  obtain ⟨-, hname, -⟩ := monthName_spec h
  simp only [middle, List.length_cons, List.length_append, length_appendNumber, hname]

theorem nul_notMem_middle : '\x00' ∉ date.middle := by
  obtain ⟨-, -, hnul⟩ := monthName_spec h
  have hdigits (number k : Nat) : '\x00' ∉ appendNumber number k := notMem_appendNumber rfl
  simp [middle, hdigits, hnul]

theorem parseFields_middle (wday timezone : Str) :
    parseFields wday date.middle timezone =
      dateOfFields 4 wday (appendNumber date.day.toNat 2) date.monthName
        (appendNumber date.year.toNat 4) (appendNumber date.hours.toNat 2)
        (appendNumber date.minutes.toNat 2) (appendNumber date.seconds.toNat 2) timezone := by
  obtain ⟨-, hname, hnul⟩ := monthName_spec h
  have hdigits (number k : Nat) : '\x00' ∉ appendNumber number k := notMem_appendNumber rfl
  refine parseFields_eq (length_appendNumber _ _) hname (length_appendNumber _ _)
    (length_appendNumber _ _) (length_appendNumber _ _) (length_appendNumber _ _) ?_ _ _
  simp only [List.mem_append, hdigits, hnul, or_self, not_false_eq_true]

/-- Reading the fields of a date gives the date, less its nanoseconds. -/
theorem dateOfFields_toString :
    dateOfFields 4 date.weekday (appendNumber date.day.toNat 2) date.monthName
        (appendNumber date.year.toNat 4) (appendNumber date.hours.toNat 2)
        (appendNumber date.minutes.toNat 2) (appendNumber date.seconds.toNat 2)
        (zoneText date.timeZone) =
      some { date with nanoSeconds := 0 } := by
  obtain ⟨hyear, hmonth, hday, hhours, hminutes, hseconds, -, hzone⟩ := (checkDate_iff date).mp h
  have hnumber (x : Int) (k : Nat) (hk : k < 9) (hx : 0 ≤ x) (hx' : x.toNat < 10 ^ (k + 1)) :
      parseInteger (appendNumber x.toNat (k + 1)) false = some x := by
    rw [parseInteger_appendNumber _ hk, Nat.mod_eq_of_lt hx', Int.toNat_of_nonneg hx]
  have hwday : ¬ (({ date with nanoSeconds := 0 } : DateTime).elapsedDaysSince1900 + 1) % 7 ≠
      matchString date.weekday timeDaysShort := by
    rw [(weekday_spec date).1]
    exact fun hne => hne rfl
  have hcheck : ({ date with nanoSeconds := 0 } : DateTime).checkDate = true := by
    rw [checkDate_iff]
    exact ⟨hyear, hmonth, hday, hhours, hminutes, hseconds,
      ⟨Int.le_refl 0, Int.natCast_nonneg 999999999⟩, hzone⟩
  rw [dateOfFields, hnumber _ 1 (by decide) (by omega) (by omega),
    hnumber _ 3 (by decide) (by omega) (by omega), hnumber _ 1 (by decide) (by omega) (by omega),
    hnumber _ 1 (by decide) (by omega) (by omega), hnumber _ 1 (by decide) (by omega) (by omega),
    parseTimeZone_zoneText hzone.1 hzone.2]
  simp only [(monthName_spec h).1, if_false, show ¬ 4 = 2 by decide]
  rw [if_neg hwday, if_pos hcheck]

theorem nul_notMem_toString : '\x00' ∉ date.toString := by
  rw [toString_eq h]
  simp [(weekday_spec date).2.2.2, nul_notMem_middle h, notMem_zoneText (.inr rfl)]

/-- Reading inverts writing. -/
theorem fromString_toString : fromString date.toString = some { date with nanoSeconds := 0 } := by
  obtain ⟨-, hlen, hcomma, -⟩ := weekday_spec date
  have hne : date.weekday ≠ [] := List.ne_nil_of_length_pos (by omega)
  have hnul := nul_notMem_toString h
  rw [toString_eq h] at hnul ⊢
  rw [fromString_split hcomma hne (notMem_zoneText (.inl rfl) _) hnul, parseFields_middle h,
    dateOfFields_toString h]
  rw [List.length_append, List.length_cons, List.length_append, List.length_cons,
    length_middle h, hlen]
  have hzone := length_zoneText date.timeZone
  omega

example : fromString "Sun, 06 Nov 1994 08:49:37 GMT".toList =
    some ⟨1994, 11, 6, 8, 49, 37, 0, 0⟩ := by decide

/-- A second time zone behind the first is a syntax error, whatever it is. -/
theorem fromString_toString_append {zone : Str} (hspace : ' ' ∉ zone) (hnul : '\x00' ∉ zone) :
    fromString (date.toString ++ ' ' :: zone) = none := by
  obtain ⟨-, hlen, hcomma, -⟩ := weekday_spec date
  have hne : date.weekday ≠ [] := List.ne_nil_of_length_pos (by omega)
  have hzone := length_zoneText date.timeZone
  have hregroup : date.toString ++ ' ' :: zone =
      date.weekday ++ ',' :: ((date.middle ++ ' ' :: zoneText date.timeZone) ++ ' ' :: zone) := by
    rw [toString_eq h, List.append_assoc, List.cons_append]
  have hlength : (date.middle ++ ' ' :: zoneText date.timeZone).length =
      22 + (zoneText date.timeZone).length := by
    rw [List.length_append, List.length_cons, length_middle h]
    omega
  have hclean : '\x00' ∉ date.toString ++ ' ' :: zone := by
    simp [nul_notMem_toString h, hnul]
  rw [hregroup] at hclean ⊢
  rw [fromString_split hcomma hne hspace hclean, parseFields_of_length]
  · omega
  · omega
  · rw [List.length_append, List.length_cons, List.length_append, hlength, hlen]
    omega

end RoundTrip

end DateTime
end Neptune
end MediaServer
