/-
Byte strings and the `std::string` operations that search them.

A string is a list of characters, one for each byte.  Nothing below looks at
what a character means, so a statement about all lists covers every content a
datagram or a header can have, of any length.

`find_first_of` returns a `size_t`, and its "not found" answer `npos` is the
largest one.  A caller that compares the position with zero therefore sees
"not found" and "found after the first byte" alike, and `findFirstOf_pos` says
that this is the only thing such a comparison can tell.
-/
import Mathlib.Data.List.Infix

namespace MediaServer
namespace Text

/-- A string of bytes. -/
abbrev Str := List Char

/-- `std::string::npos`, the largest `size_t`. -/
def npos : Nat := UInt64.size - 1

/-- `s.find_first_of(set)`: the position of the first character of `s` that
belongs to `set`, and `npos` when there is none. -/
def findFirstOf (s set : Str) : Nat :=
  match s.findIdx? (fun c => set.contains c) with
  | some i => i
  | none => npos

/-- `s.compare(0, n, t) == 0`: the first `n` characters of `s`, or all of them
when there are fewer, are exactly `t`. -/
def compareFirst (s : Str) (n : Nat) (t : Str) : Bool := s.take n == t

abbrev Occurs (t s : Str) : Prop := t <:+: s

theorem findFirstOf_nil (set : Str) : findFirstOf [] set = npos := rfl

theorem findFirstOf_cons_of_mem {c : Char} {set : Str} (h : c ∈ set) (s : Str) :
    findFirstOf (c :: s) set = 0 := by
  simp [findFirstOf, List.findIdx?_cons, h]

theorem findFirstOf_cons_of_not_mem {c : Char} {set : Str} (h : c ∉ set) (s : Str) :
    0 < findFirstOf (c :: s) set := by
  unfold findFirstOf
  rw [List.findIdx?_cons, List.contains_eq_mem, decide_eq_false h]
  cases s.findIdx? (fun c => set.contains c) with
  | none => exact Nat.sub_pos_of_lt (by decide)
  | some i => exact Nat.succ_pos i

/-- A positive answer says that the string does not start with a character of
the set, and nothing about any later character. -/
theorem findFirstOf_pos (s set : Str) :
    0 < findFirstOf s set ↔ ∀ c ∈ s.head?, c ∉ set := by
  cases s with
  | nil => simp [findFirstOf_nil, npos]
  | cons c s =>
    by_cases h : c ∈ set
    · simp [findFirstOf_cons_of_mem h, h]
    · simp [findFirstOf_cons_of_not_mem h, h]

/-- A string that is compared at its start begins with what it is compared to
whenever the length given is that of the other string. -/
theorem compareFirst_length (s t : Str) : compareFirst s t.length t = true ↔ t <+: s := by
  rw [compareFirst, beq_iff_eq, List.prefix_iff_eq_take, eq_comm]

theorem head?_of_prefix {c : Char} {t s : Str} (h : c :: t <+: s) : s.head? = some c := by
  obtain ⟨r, rfl⟩ := h
  rfl

/-! ## The last occurrence of a character -/

/-- `s.rfind(c)`, with `none` for `npos`. -/
def rfind : Str → Char → Option Nat
  | [], _ => none
  | x :: s, c =>
    match rfind s c with
    | some i => some (i + 1)
    | none => if x = c then some 0 else none

theorem rfind_eq_none {s : Str} {c : Char} (h : c ∉ s) : rfind s c = none := by
  induction s with
  | nil => rfl
  | cons x s ih =>
    rw [List.mem_cons, not_or] at h
    rw [rfind, ih h.2]
    exact if_neg fun e => h.1 e.symm

theorem rfind_append (s : Str) {c : Char} {t : Str} (h : c ∉ t) :
    rfind (s ++ c :: t) c = some s.length := by
  induction s with
  | nil =>
    rw [List.nil_append, rfind, rfind_eq_none h]
    exact if_pos rfl
  | cons x s ih => rw [List.cons_append, rfind, ih, List.length_cons]

/-- A character that occurs divides the string at its last occurrence. -/
theorem exists_last_of_mem {s : Str} {c : Char} (h : c ∈ s) :
    ∃ before after, s = before ++ c :: after ∧ c ∉ after := by
  induction s with
  | nil => cases h
  | cons x s ih =>
    by_cases hs : c ∈ s
    · obtain ⟨before, after, rfl, hafter⟩ := ih hs
      exact ⟨x :: before, after, rfl, hafter⟩
    · rcases List.mem_cons.mp h with rfl | hmem
      · exact ⟨[], s, rfl, hs⟩
      · exact absurd hmem hs

end Text
end MediaServer
