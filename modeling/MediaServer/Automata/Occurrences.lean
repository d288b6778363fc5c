/-
How far a text has been read into a pattern of classes of letters.

A pattern may be read into at several places at once.  When any two classes are
equal or disjoint, the longest place determines all the others
(`fits_iff_of_longest_eq`).
-/
import Mathlib.Data.Nat.Find

namespace MediaServer
namespace Automata

universe u

variable {α : Type u}

/-- The last letters read, the very last one first, fit the first `i` classes. -/
def Fits (C : Nat → α → Prop) : List α → Nat → Prop
  | _, 0 => True
  | [], _ + 1 => False
  | a :: read, i + 1 => C i a ∧ Fits C read i

theorem fits_cons_succ {C : Nat → α → Prop} {a : α} {read : List α} {i : Nat} :
    Fits C (a :: read) (i + 1) ↔ C i a ∧ Fits C read i := Iff.rfl

theorem fits_zero {C : Nat → α → Prop} (read : List α) : Fits C read 0 := by
  cases read <;> trivial

/-- Where a longer place is, the shorter ones depend on the pattern alone. -/
theorem fits_of_fits {C : Nat → α → Prop}
    (hC : ∀ i j a, C i a → C j a → ∀ b, C j b → C i b) {i k : Nat} {read read' : List α}
    (hik : i ≤ k) (hk : Fits C read k) (hi : Fits C read i) (hk' : Fits C read' k) :
    Fits C read' i := by
  induction i generalizing k read read' with
  | zero => exact fits_zero read'
  | succ i ih =>
    obtain ⟨k, rfl⟩ : ∃ l, k = l + 1 := ⟨k - 1, by omega⟩
    cases read with
    | nil => exact hk.elim
    | cons a read =>
      cases read' with
      | nil => exact hk'.elim
      | cons b read' =>
        exact ⟨hC i k a hi.1 hk.1 b hk'.1, ih (Nat.le_of_succ_le_succ hik) hk.2 hi.2 hk'.2⟩

section Longest

open Classical

/-- The longest place up to `n`. -/
noncomputable def longest (C : Nat → α → Prop) (n : Nat) (read : List α) : Nat :=
  Nat.findGreatest (Fits C read) n

theorem longest_le (C : Nat → α → Prop) (n : Nat) (read : List α) : longest C n read ≤ n :=
  Nat.findGreatest_le n

theorem fits_longest (C : Nat → α → Prop) (n : Nat) (read : List α) :
    Fits C read (longest C n read) :=
  Nat.findGreatest_spec (P := Fits C read) (Nat.zero_le n) (fits_zero read)

theorem le_longest {C : Nat → α → Prop} {n i : Nat} {read : List α} (hi : i ≤ n)
    (h : Fits C read i) : i ≤ longest C n read :=
  Nat.le_findGreatest hi h

end Longest

theorem fits_iff_of_longest_eq {C : Nat → α → Prop}
    (hC : ∀ i j a, C i a → C j a → ∀ b, C j b → C i b) {n i : Nat} {read read' : List α}
    (hl : longest C n read = longest C n read') (hi : i ≤ n) :
    Fits C read i ↔ Fits C read' i := by
  constructor
  · intro h
    exact fits_of_fits hC (le_longest hi h) (fits_longest C n read) h
      (hl ▸ fits_longest C n read')
  · intro h
    exact fits_of_fits hC (le_longest hi h) (fits_longest C n read') h
      (hl ▸ fits_longest C n read)

end Automata
end MediaServer
