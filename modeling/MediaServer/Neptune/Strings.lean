/-
The comparisons of `NPT_String`.

Neptune compares C strings: every comparison reads up to and including the
terminating NUL.  The functions below read a string through `first`, which is
NUL once the characters are used up.  Only whether a result is zero matters to
the callers, and `compare_cons_eq_zero_iff` says when it is.

In this and the following modules a definition has the name of the function or the
type it embeds, without the prefix `NPT_`.
-/
import Mathlib.Data.List.TakeWhile
import MediaServer.Text.Str

namespace MediaServer
namespace Neptune

open Text

/-- The character a `char*` points to: the first of the string, or the
terminating NUL. -/
def first (s : Str) : Char := s.headD '\x00'

/-- The C string a `char*` to the characters of `s` denotes. -/
def cString (s : Str) : Str := s.takeWhile (· ≠ '\x00')

/-- `NPT_Uppercase`, which changes the letters `a` to `z` only. -/
def uppercase (c : Char) : Char := c.toUpper

def reading (ignoreCase : Bool) (c : Char) : Char := if ignoreCase then uppercase c else c

def difference (a b : Char) : Int := (a.toNat : Int) - (b.toNat : Int)

def compare (ignoreCase : Bool) : Str → Str → Int
  | [], t => difference (reading ignoreCase '\x00') (reading ignoreCase (first t))
  | c :: s, t =>
    if reading ignoreCase c = reading ignoreCase (first t) then
      if c = '\x00' then 0 else compare ignoreCase s t.tail
    else difference (reading ignoreCase c) (reading ignoreCase (first t))

/-- `NPT_String::CompareN`, which looks at `count` characters and reads past
neither string as long as one of them is that long. -/
def compareN (ignoreCase : Bool) : Str → Str → Nat → Int
  | _, _, 0 => 0
  | s, t, count + 1 =>
    if reading ignoreCase (first s) = reading ignoreCase (first t) then
      compareN ignoreCase s.tail t.tail count
    else difference (reading ignoreCase (first s)) (reading ignoreCase (first t))

theorem compareN_cons (ignoreCase : Bool) (c d : Char) (s t : Str) (count : Nat) :
    compareN ignoreCase (c :: s) (d :: t) (count + 1) =
      if reading ignoreCase c = reading ignoreCase d then compareN ignoreCase s t count
      else difference (reading ignoreCase c) (reading ignoreCase d) := rfl

/-- `NPT_StringStartsWith(str, sub) == 1`. -/
def startsWith (ignoreCase : Bool) : Str → Str → Bool
  | _, [] => true
  | s, c :: t =>
    if c = '\x00' then true
    else reading ignoreCase (first s) = reading ignoreCase c && startsWith ignoreCase s.tail t

theorem cString_eq_self {s : Str} (h : '\x00' ∉ s) : cString s = s := by
  refine List.takeWhile_eq_self_iff.mpr fun c hc => ?_
  have hne : c ≠ '\x00' := fun e => h (e ▸ hc)
  simpa using hne

theorem cString_eq (s : Str) :
    cString s = if first s = '\x00' then [] else first s :: cString s.tail := by
  cases s with
  | nil => rfl
  | cons c s =>
    rw [cString, List.takeWhile_cons]
    by_cases h : c = '\x00'
    · simp [first, h]
    · simp [first, h, cString]

theorem cString_cString (s : Str) : cString (cString s) = cString s := by
  refine cString_eq_self fun h => ?_
  have hnul := List.mem_takeWhile_imp h
  simp at hnul

theorem difference_eq_zero_iff (a b : Char) : difference a b = 0 ↔ a = b := by
  unfold difference
  constructor
  · intro h
    exact Char.toNat_inj.mp (by omega)
  · intro heq
    subst heq
    exact Int.sub_self _

/-- Only NUL is read as NUL, with or without regard to case. -/
theorem eq_nul_of_reading {ignoreCase : Bool} {c : Char}
    (h : reading ignoreCase c = reading ignoreCase '\x00') : c = '\x00' := by
  cases ignoreCase with
  | false => exact h
  | true =>
    change c.toUpper = '\x00' at h
    unfold Char.toUpper at h
    split at h
    · rename_i hc
      have hval := congrArg Char.toNat h
      have hlo : 97 ≤ c.toNat := hc.1
      have hhi : c.toNat ≤ 122 := hc.2
      have hsub : (c.val + ('A'.val - 'a'.val)).toNat = c.toNat - 32 := by
        rw [UInt32.toNat_add]
        show (c.toNat + 4294967264) % 4294967296 = c.toNat - 32
        omega
      change (c.val + ('A'.val - 'a'.val)).toNat = 0 at hval
      omega
    · exact h

/-- A comparison that ends in zero has read equal characters all along. -/
theorem compare_cons_eq_zero_iff (ignoreCase : Bool) (s : Str) {c : Char} (t : Str)
    (hc : c ≠ '\x00') :
    compare ignoreCase s (c :: t) = 0 ↔
      ∃ d s', s = d :: s' ∧ reading ignoreCase d = reading ignoreCase c ∧
        compare ignoreCase s' t = 0 := by
  cases s with
  | nil =>
    rw [compare, difference_eq_zero_iff]
    constructor
    · exact fun h => absurd (eq_nul_of_reading h.symm) hc
    · intro hcase
      obtain ⟨d, s', h, -⟩ := hcase
      cases h
  | cons d s =>
    rw [compare]
    by_cases h : reading ignoreCase d = reading ignoreCase c
    · have hd : d ≠ '\x00' := by
        intro heq
        subst heq
        exact hc (eq_nul_of_reading h.symm)
      simp [first, h, hd]
    · simp [first, h, difference_eq_zero_iff]

theorem compare_eq (ignoreCase : Bool) (s t : Str) :
    compare ignoreCase s t =
      if reading ignoreCase (first s) = reading ignoreCase (first t) then
        if first s = '\x00' then 0 else compare ignoreCase s.tail t.tail
      else difference (reading ignoreCase (first s)) (reading ignoreCase (first t)) := by
  cases s with
  | nil =>
    rw [compare]
    split
    · rename_i h
      exact (difference_eq_zero_iff _ _).mpr h
    · rfl
  | cons c s => rfl

/-- Two C strings compare equal when their characters are read alike. -/
theorem compare_eq_zero_iff (ignoreCase : Bool) (s t : Str) :
    compare ignoreCase s t = 0 ↔
      (cString s).map (reading ignoreCase) = (cString t).map (reading ignoreCase) := by
  induction s generalizing t with
  | nil =>
    rw [compare, difference_eq_zero_iff, cString_eq t]
    by_cases ht : first t = '\x00'
    · rw [ht, if_pos rfl]
      exact iff_of_true rfl rfl
    · rw [if_neg ht]
      exact iff_of_false (fun h => ht (eq_nul_of_reading h.symm)) (List.cons_ne_nil _ _).symm
  | cons c s ih =>
    rw [compare_eq, cString_eq (c :: s), cString_eq t, first, List.headD_cons, List.tail_cons]
    by_cases hread : reading ignoreCase c = reading ignoreCase (first t)
    · by_cases hc : c = '\x00'
      · have ht : first t = '\x00' := by
          rw [hc] at hread
          exact eq_nul_of_reading hread.symm
        rw [if_pos hread, if_pos hc, if_pos hc, if_pos ht]
        exact iff_of_true rfl rfl
      · have ht : first t ≠ '\x00' := by
          intro ht
          rw [ht] at hread
          exact hc (eq_nul_of_reading hread)
        rw [if_pos hread, if_neg hc, if_neg hc, if_neg ht, ih, List.map_cons, List.map_cons,
          List.cons.injEq]
        exact (and_iff_right hread).symm
    · rw [if_neg hread, difference_eq_zero_iff]
      refine iff_of_false hread fun h => hread ?_
      split at h
      · rename_i hc
        split at h
        · rename_i ht
          rw [hc, ht]
        · cases h
      · split at h
        · cases h
        · exact (List.cons.inj h).1

/-- The terminating NUL counts as a character, and all that is read after it does too. -/
theorem compareN_eq_zero_iff (ignoreCase : Bool) (s t : Str) (count : Nat) :
    compareN ignoreCase s t count = 0 ↔
      ∀ i < count, reading ignoreCase (s.getD i '\x00') = reading ignoreCase (t.getD i '\x00') := by
  have hfirst (s : Str) : s.getD 0 '\x00' = first s := by cases s <;> rfl
  have htail (s : Str) (i : Nat) : s.getD (i + 1) '\x00' = s.tail.getD i '\x00' := by
    cases s <;> rfl
  induction count generalizing s t with
  | zero => exact iff_of_true rfl fun i hi => absurd hi (Nat.not_lt_zero i)
  | succ count ih =>
    rw [compareN, Nat.forall_lt_succ_left, hfirst, hfirst]
    simp only [htail]
    by_cases hread : reading ignoreCase (first s) = reading ignoreCase (first t)
    · rw [if_pos hread, and_iff_right hread]
      exact ih s.tail t.tail
    · rw [if_neg hread, difference_eq_zero_iff]
      exact iff_of_false hread fun h => hread h.1

theorem compare_eq_zero_of_map_eq {ignoreCase : Bool} {s t : Str}
    (h : s.map (reading ignoreCase) = t.map (reading ignoreCase)) :
    compare ignoreCase s t = 0 := by
  induction s generalizing t with
  | nil =>
    rw [List.map_eq_nil_iff.mp h.symm, compare, difference_eq_zero_iff]
    rfl
  | cons c s ih =>
    obtain ⟨d, t', rfl, hd, hs⟩ := List.map_eq_cons_iff.mp h.symm
    rw [compare, first, List.headD_cons, if_pos hd.symm]
    split
    · rfl
    · exact ih hs.symm

/-- The characters of a prefix are compared alike, however long the other string is. -/
theorem compareN_eq_zero_of_initial {ignoreCase : Bool} {s t : Str}
    (h : t.map (reading ignoreCase) <+: s.map (reading ignoreCase)) :
    compareN ignoreCase s t t.length = 0 := by
  induction t generalizing s with
  | nil => rfl
  | cons d t ih =>
    cases s with
    | nil => cases List.prefix_nil.mp h
    | cons c s =>
      obtain ⟨hc, hs⟩ := List.cons_prefix_cons.mp h
      rw [List.length_cons, compareN_cons, if_pos hc.symm]
      exact ih hs

end Neptune
end MediaServer
