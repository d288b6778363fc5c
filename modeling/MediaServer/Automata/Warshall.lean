/-
The transitive closure of a relation on the numbers below a bound, built by
cutting short one intermediate number after the other.
-/
import Mathlib.Logic.Relation

namespace MediaServer
namespace Automata

/-- `R`, and every way over `k` cut short. -/
def shortcut (R : Nat → Nat → Prop) (k : Nat) : Nat → Nat → Prop :=
  fun i j => R i j ∨ (R i k ∧ R k j)

/-- The ways over the numbers below `n` cut short in turn. -/
def warshall (R : Nat → Nat → Prop) : Nat → Nat → Nat → Prop
  | 0 => R
  | n + 1 => shortcut (warshall R n) n

variable {R : Nat → Nat → Prop}

theorem warshall_of (n : Nat) {i j : Nat} (h : R i j) : warshall R n i j := by
  induction n with
  | zero => exact h
  | succ n ih => exact Or.inl ih

theorem transGen_of_warshall {n i j : Nat} (h : warshall R n i j) : Relation.TransGen R i j := by
  induction n generalizing i j with
  | zero => exact Relation.TransGen.single h
  | succ n ih =>
    rcases h with h | ⟨hik, hkj⟩
    · exact ih h
    · exact (ih hik).trans (ih hkj)

/-- A way over a number that was cut short already has its own short cut. -/
theorem warshall_trans {n i v j : Nat} (hv : v < n) (h : warshall R n i v)
    (k : warshall R n v j) : warshall R n i j := by
  induction n generalizing i v j with
  | zero => exact absurd hv (Nat.not_lt_zero v)
  | succ n ih =>
    rcases Nat.lt_succ_iff_lt_or_eq.mp hv with hlt | rfl
    · rcases h with hiv | ⟨hin, hnv⟩
      · rcases k with hvj | ⟨hvn, hnj⟩
        · exact Or.inl (ih hlt hiv hvj)
        · exact Or.inr ⟨ih hlt hiv hvn, hnj⟩
      · rcases k with hvj | ⟨-, hnj⟩
        · exact Or.inr ⟨hin, ih hlt hnv hvj⟩
        · exact Or.inr ⟨hin, hnj⟩
    · have hiv : warshall R v i v := by
        rcases h with h | ⟨h, -⟩
        · exact h
        · exact h
      have hvj : warshall R v v j := by
        rcases k with k | ⟨-, k⟩
        · exact k
        · exact k
      exact Or.inr ⟨hiv, hvj⟩

/-- When every number that is reached lies below the bound, the result is the
transitive closure. -/
theorem warshall_iff {n : Nat} (hn : ∀ i j, R i j → j < n) (i j : Nat) :
    warshall R n i j ↔ Relation.TransGen R i j := by
  constructor
  · exact transGen_of_warshall
  · intro h
    induction h with
    | single h => exact warshall_of n h
    | tail h step ih =>
      have hlt : ∀ {k}, Relation.TransGen R i k → k < n := by
        intro k hk
        cases hk with
        | single hk => exact hn _ _ hk
        | tail _ hk => exact hn _ _ hk
      exact warshall_trans (hlt h) ih (warshall_of n step)

end Automata
end MediaServer
