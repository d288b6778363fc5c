/-
Languages that do not tell some letters from each other.

`Saturated f L` says that `L` has, with a word, every word that `f` maps to the
same word.  The operations on languages, complement included, keep it.
-/
import Mathlib.Computability.Language
import Mathlib.Order.ConditionallyCompleteLattice.Basic

namespace MediaServer
namespace Automata

open Computability

universe u v

variable {α : Type u} {β : Type v} {f : α → β} {L K : Language α}

def Saturated (f : α → β) (L : Language α) : Prop :=
  ∀ x y, x.map f = y.map f → x ∈ L → y ∈ L

theorem saturated_zero : Saturated f (0 : Language α) := fun _ _ _ hx => hx.elim

theorem saturated_one : Saturated f (1 : Language α) := by
  intro x y h hx
  rw [Language.mem_one] at hx ⊢
  rw [hx] at h
  exact List.map_eq_nil_iff.mp h.symm

namespace Saturated

theorem add (hL : Saturated f L) (hK : Saturated f K) : Saturated f (L + K) :=
  fun x y h hx => hx.imp (hL x y h) (hK x y h)

theorem inf (hL : Saturated f L) (hK : Saturated f K) : Saturated f (L ⊓ K) :=
  fun x y h hx => ⟨hL x y h hx.1, hK x y h hx.2⟩

theorem compl (hL : Saturated f L) : Saturated f Lᶜ :=
  fun x y h hx hy => hx (hL y x h.symm hy)

theorem mul (hL : Saturated f L) (hK : Saturated f K) : Saturated f (L * K) := by
  intro x y h hx
  obtain ⟨a, ha, b, hb, rfl⟩ := Language.mem_mul.mp hx
  rw [List.map_append] at h
  obtain ⟨a', b', rfl, ha', hb'⟩ := List.map_eq_append_iff.mp h.symm
  exact Language.append_mem_mul (hL a a' ha'.symm ha) (hK b b' hb'.symm hb)

theorem pow (hL : Saturated f L) (n : Nat) : Saturated f (L ^ n) := by
  induction n with
  | zero =>
    rw [pow_zero]
    exact saturated_one
  | succ n ih =>
    rw [pow_succ]
    exact ih.mul hL

theorem kstar (hL : Saturated f L) : Saturated f (L∗ : Language α) := by
  intro x y h hx
  rw [Language.kstar_eq_iSup_pow, Language.mem_iSup] at hx ⊢
  obtain ⟨n, hx⟩ := hx
  exact ⟨n, hL.pow n x y h hx⟩

/-- What has a word of the language in it is known by its images. -/
theorem infix_iff (hL : Saturated f L) {x y : List α} (h : x.map f = y.map f) :
    (∃ z ∈ L, z <:+: x) ↔ ∃ z ∈ L, z <:+: y := by
  have key : ∀ {x y : List α}, x.map f = y.map f → (∃ z ∈ L, z <:+: x) → ∃ z ∈ L, z <:+: y := by
    rintro x y h ⟨z, hz, a, b, rfl⟩
    rw [List.map_append, List.map_append] at h
    obtain ⟨az, b', rfl, haz, -⟩ := List.map_eq_append_iff.mp h.symm
    obtain ⟨a', z', rfl, -, hz'⟩ := List.map_eq_append_iff.mp haz
    exact ⟨z', hL z z' hz'.symm hz, a', b', rfl⟩
  exact ⟨key h, key h.symm⟩

end Saturated

end Automata
end MediaServer
