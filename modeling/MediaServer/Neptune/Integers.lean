/-
Reading integers: `NPT_ParseInteger` of `NptUtils.cpp`.

The 64-bit readers work on machine integers and detect an overflow by its effect
on the value, so the loops below are over `Int64` and `UInt64`.  The readers for
`int` and `unsigned int` then check the range of the narrower type.

`parseDigits_digit` and `parseUnsignedDigits_digit` say what one digit does to a
value that is far from the bound.
-/
import Mathlib.Algebra.Ring.Nat
import MediaServer.Neptune.Headers

namespace MediaServer
namespace Neptune

open Text

def isDigit (c : Char) : Bool := '0' ≤ c && c ≤ '9'

def digitValue (c : Char) : Nat := c.toNat - '0'.toNat

/-! ## Signed -/

/-- The largest value to which one more digit is appended.  The adjustment for
negative values is there for a width whose maximum ends in 9. -/
def digitsMax (negative : Bool) : Int64 :=
  if negative ∧ Int64.maxValue % 10 = 9 then Int64.maxValue / 10 + 1 else Int64.maxValue / 10

/-- The end of `NPT_ParseInteger64`, after its loop. -/
def finishDigits (negative : Bool) (value : Int64) (empty : Bool) : Option Int64 :=
  if empty then none else some (if negative then -value else value)

/-- The loop of `NPT_ParseInteger64`: the value so far and whether no digit has
been read. -/
def parseDigits (relaxed negative : Bool) : Str → Int64 → Bool → Option Int64
  | [], value, empty => finishDigits negative value empty
  | c :: str, value, empty =>
    if isDigit c then
      if value < 0 ∨ digitsMax negative < value then none
      else
        let value := 10 * value + Int64.ofNat (digitValue c)
        if value < 0 ∧ (negative = false ∨ value ≠ Int64.minValue) then none
        else parseDigits relaxed negative str value false
    else if relaxed then finishDigits negative value empty
    else none

/-- The string at which a reader starts. -/
def integerStart (str : Str) (relaxed : Bool) : Str :=
  if relaxed then (cString str).dropWhile Headers.isBlank else cString str

/-- `NPT_ParseInteger64`, which accepts one sign. -/
def parseInteger64 (str : Str) (relaxed : Bool) : Option Int64 :=
  match integerStart str relaxed with
  | [] => none
  | c :: str =>
    if c = '-' then parseDigits relaxed true str 0 true
    else if c = '+' then parseDigits relaxed false str 0 true
    else parseDigits relaxed false (c :: str) 0 true

/-- `NPT_ParseInteger` into an `int`. -/
def parseInteger (str : Str) (relaxed : Bool) : Option Int :=
  match parseInteger64 str relaxed with
  | none => none
  | some value =>
    if value < -2147483648 ∨ 2147483647 < value then none else some value.toInt

/-! ## Unsigned -/

def parseUnsignedDigits (relaxed : Bool) : Str → UInt64 → Bool → Option UInt64
  | [], value, empty => if empty then none else some value
  | c :: str, value, empty =>
    if isDigit c then
      if UInt64.ofNat (UInt64.size - 1) / 10 < value then none
      else
        let newValue := 10 * value + UInt64.ofNat (digitValue c)
        if newValue < value then none else parseUnsignedDigits relaxed str newValue false
    else if relaxed then (if empty then none else some value)
    else none

/-- `NPT_ParseInteger64` into a `NPT_UInt64`, which accepts no sign. -/
def parseUnsigned64 (str : Str) (relaxed : Bool) : Option UInt64 :=
  match integerStart str relaxed with
  | [] => none
  | c :: str => parseUnsignedDigits relaxed (c :: str) 0 true

/-- `NPT_ParseInteger` into an `unsigned int`. -/
def parseUnsigned (str : Str) (relaxed : Bool) : Option Nat :=
  match parseUnsigned64 str relaxed with
  | none => none
  | some value => if 4294967295 < value then none else some value.toNat

/-! ## One digit -/

theorem isDigit_digitChar : ∀ d < 10, isDigit (Nat.digitChar d) = true ∧
    digitValue (Nat.digitChar d) = d := by
  decide

theorem toInt_ofNat_small {n : Nat} (h : n < 10 ^ 18) : (Int64.ofNat n).toInt = n :=
  Int64.toInt_ofNat_of_lt (by omega)

theorem parseDigits_digit {d value : Nat} (hd : d < 10) (hvalue : value < 10 ^ 17)
    (relaxed negative empty : Bool) (str : Str) :
    parseDigits relaxed negative (Nat.digitChar d :: str) (Int64.ofNat value) empty =
      parseDigits relaxed negative str (Int64.ofNat (10 * value + d)) false := by
  obtain ⟨hdigit, hval⟩ := isDigit_digitChar d hd
  have hnext : 10 * Int64.ofNat value + Int64.ofNat d = Int64.ofNat (10 * value + d) := by
    rw [Int64.ofNat_add, Int64.ofNat_mul]
    rfl
  have hfits : ¬ (Int64.ofNat value < 0 ∨ digitsMax negative < Int64.ofNat value) := by
    have hmax : (922337203685477580 : Int) ≤ (digitsMax negative).toInt := by
      cases negative <;> decide
    rw [Int64.lt_iff_toInt_lt, Int64.lt_iff_toInt_lt, toInt_ofNat_small (by omega),
      Int64.toInt_zero]
    omega
  have hnonneg : ¬ Int64.ofNat (10 * value + d) < 0 := by
    rw [Int64.lt_iff_toInt_lt, toInt_ofNat_small (by omega), Int64.toInt_zero]
    omega
  rw [parseDigits, if_pos hdigit, if_neg hfits, hval]
  simp only [hnext, hnonneg, false_and, if_false]

theorem toNat_ofNat_small {n : Nat} (h : n < 10 ^ 18) : (UInt64.ofNat n).toNat = n :=
  UInt64.toNat_ofNat_of_lt' (by show n < 2 ^ 64; omega)

theorem parseUnsignedDigits_digit {d value : Nat} (hd : d < 10) (hvalue : value < 10 ^ 17)
    (relaxed empty : Bool) (str : Str) :
    parseUnsignedDigits relaxed (Nat.digitChar d :: str) (UInt64.ofNat value) empty =
      parseUnsignedDigits relaxed str (UInt64.ofNat (10 * value + d)) false := by
  obtain ⟨hdigit, hval⟩ := isDigit_digitChar d hd
  have hnext : 10 * UInt64.ofNat value + UInt64.ofNat d = UInt64.ofNat (10 * value + d) := by
    rw [UInt64.ofNat_add, UInt64.ofNat_mul]
    rfl
  have hfits : ¬ UInt64.ofNat (UInt64.size - 1) / 10 < UInt64.ofNat value := by
    have hmax : (UInt64.ofNat (UInt64.size - 1) / 10).toNat = 1844674407370955161 := by decide
    rw [UInt64.lt_iff_toNat_lt, hmax, toNat_ofNat_small (by omega)]
    omega
  have hgrows : ¬ UInt64.ofNat (10 * value + d) < UInt64.ofNat value := by
    rw [UInt64.lt_iff_toNat_lt, toNat_ofNat_small (by omega),
      toNat_ofNat_small (by omega)]
    omega
  rw [parseUnsignedDigits, if_pos hdigit, if_neg hfits, hval]
  simp only [hnext, hgrows, if_false]

end Neptune
end MediaServer
