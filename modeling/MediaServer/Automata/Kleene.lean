/-
Automata that are put together, and their languages.

An automaton is entered through a state that loops (`acceptsFrom_of_entry`) and
left into one (`acceptsFrom_universal`), it is run again and again
(`acceptsFrom_loop`), and two of them are alternatives of one state
(`acceptsFrom_alternatives`).  Running one after the other is
`acceptsFrom_exits`.
-/
import MediaServer.Automata.Paths
import Mathlib.Computability.Language

namespace MediaServer
namespace Automata

open Computability

universe u v w

variable {α : Type u} {σ : Type v} {τ : Type w}

/-! ## Exits -/

/-- Leaving by ε for one state. -/
theorem departures_silent (N : εNFA α τ) (q : τ) :
    departures N (fun o t => o = none ∧ t = q) = acceptsFrom N q := by
  ext x
  constructor
  · rintro ⟨o, t, y, rfl, ⟨rfl, rfl⟩, hy⟩
    exact hy
  · intro hx
    exact ⟨none, q, x, rfl, ⟨rfl, rfl⟩, hx⟩

/-- Leaving by ε for one of two states. -/
theorem departures_silent_or (N : εNFA α τ) (p q : τ) :
    departures N (fun o t => o = none ∧ (t = p ∨ t = q)) = acceptsFrom N p + acceptsFrom N q := by
  ext x
  rw [Language.mem_add]
  constructor
  · rintro ⟨o, t, y, rfl, ⟨rfl, rfl | rfl⟩, hy⟩
    · exact Or.inl hy
    · exact Or.inr hy
  · rintro (hx | hx)
    · exact ⟨none, p, x, rfl, ⟨rfl, Or.inl rfl⟩, hx⟩
    · exact ⟨none, q, x, rfl, ⟨rfl, Or.inr rfl⟩, hx⟩

/-- A state that accepts and has no steps. -/
theorem acceptsFrom_sink {N : εNFA α τ} {q : τ} (h : ∀ o, N.step q o = ∅) (hq : q ∈ N.accept) :
    acceptsFrom N q = 1 := by
  ext x
  rw [acceptsFrom_of_no_step h, Language.mem_one]
  exact and_iff_left hq

/-! ## Everything -/

/-- A state that accepts and keeps itself on every letter accepts every word. -/
theorem acceptsFrom_universal {N : εNFA α τ} {q : τ} (hq : q ∈ N.accept)
    (h : ∀ a, q ∈ N.step q (some a)) : acceptsFrom N q = ⊤ := by
  refine top_unique fun x hx => ?_
  clear hx
  induction x with
  | nil => exact acceptsFrom_of_accept hq
  | cons a x ih => exact acceptsFrom_of_step (some a) (h a) ih

/-- The automaton of one state that goes everywhere and accepts. -/
def anything (α : Type u) : εNFA α Unit where
  step _ _ := Set.univ
  start := Set.univ
  accept := Set.univ

theorem acceptsFrom_anything : acceptsFrom (anything α) () = ⊤ :=
  acceptsFrom_universal (Set.mem_univ _) fun _ => Set.mem_univ _

/-- A state that keeps itself on every letter and leaves by ε for `a`. -/
theorem acceptsFrom_of_entry {N : εNFA α τ} {i a : τ}
    (h : ∀ o t, t ∈ N.step i o ↔ t = i ∨ (o = none ∧ t = a)) (hi : i ∉ N.accept) :
    acceptsFrom N i = ⊤ * acceptsFrom N a := by
  have hstep : ∀ (s : Unit) (o : Option α) (t : τ), True →
      (t ∈ N.step i o ↔ t ∈ (fun _ : Unit => i) '' (anything α).step s o ∨
        (s ∈ (anything α).accept ∧ (o = none ∧ t = a))) := by
    intro s o t _
    rw [h]
    constructor
    · rintro (rfl | ht)
      · exact Or.inl ⟨(), Set.mem_univ _, rfl⟩
      · exact Or.inr ⟨Set.mem_univ _, ht⟩
    · rintro (⟨_, _, rfl⟩ | ⟨_, ht⟩)
      · exact Or.inl rfl
      · exact Or.inr ht
  rw [← departures_silent N a, ← acceptsFrom_anything (α := α)]
  exact acceptsFrom_exits (fun _ _ _ _ _ => trivial) hstep (fun _ _ => hi) trivial

/-! ## Iteration -/

section Loop

variable {M : εNFA α σ} {N : εNFA α τ} {P : σ → Prop} {f : σ → τ} {a : σ} {z : τ}

/-- A part that is left by ε, at its accepting states, for its own start `a` or
for the end `z` is run any number of times, once at least. -/
theorem acceptsFrom_loop (hP : ∀ s o t, P s → t ∈ M.step s o → P t)
    (hstep : ∀ s o t, P s → (t ∈ N.step (f s) o ↔
      t ∈ f '' M.step s o ∨ (s ∈ M.accept ∧ (o = none ∧ (t = f a ∨ t = z)))))
    (hacc : ∀ s, P s → f s ∉ N.accept) (hz : acceptsFrom N z = 1) (ha : P a) :
    acceptsFrom N (f a) = acceptsFrom M a * (acceptsFrom M a)∗ := by
  set L := acceptsFrom M a with hL
  have hexits : acceptsFrom N (f a) = L * (acceptsFrom N (f a) + 1) := by
    have h := acceptsFrom_exits hP hstep hacc ha
    rwa [departures_silent_or, hz] at h
  have hle : ∀ s x, P s → x ∈ acceptsFrom N (f s) → x ∈ acceptsFrom M s * L∗ := by
    rintro s x hs ⟨u, hu, hp⟩
    generalize he : f s = q at hp
    -- each visit to an accepting state ends one run of the part
    induction hp generalizing s with
    | nil q =>
      subst he
      exact absurd hu (hacc s hs)
    | @cons q t u y o step rest ih =>
      subst he
      rcases (hstep s o t hs).mp step with ⟨t', ht', rfl⟩ | ⟨hsa, rfl, rfl | rfl⟩
      · obtain ⟨v, hv, w, hw, rfl⟩ := Language.mem_mul.mp (ih t' (hP s o t' hs ht') hu rfl)
        rw [← List.append_assoc]
        exact Language.append_mem_mul (acceptsFrom_of_step o ht' hv) hw
      · have hy : y ∈ L * L∗ := ih a ha hu rfl
        have hle : L * L∗ ≤ L∗ := mul_kstar_le_kstar
        have hnil : [] ++ y ∈ acceptsFrom M s * L∗ :=
          Language.append_mem_mul (acceptsFrom_of_accept hsa) (hle hy)
        exact hnil
      · have hy : y ∈ acceptsFrom N t := ⟨u, hu, rest⟩
        rw [hz, Language.mem_one] at hy
        subst hy
        exact Language.append_mem_mul (acceptsFrom_of_accept hsa) (Language.nil_mem_kstar L)
  have hge : L∗ ≤ acceptsFrom N (f a) + 1 := by
    have h1 : (1 : Language α) ≤ acceptsFrom N (f a) + 1 := le_add_of_nonneg_left bot_le
    have hmul : L * (acceptsFrom N (f a) + 1) ≤ acceptsFrom N (f a) + 1 := by
      rw [← hexits]
      exact le_add_of_nonneg_right bot_le
    have h := kstar_mul_le h1 hmul
    rwa [mul_one] at h
  refine le_antisymm (fun x hx => hle a x ha hx) ?_
  rw [hexits]
  gcongr

end Loop

/-! ## Counts -/

/-- What is repeated `n` times and then any number of times. -/
theorem mem_pow_mul_kstar {L : Language α} {n : Nat} {x : List α} :
    x ∈ L ^ n * L∗ ↔ ∃ k, n ≤ k ∧ x ∈ L ^ k := by
  rw [Language.kstar_eq_iSup_pow, Language.mul_iSup, Language.mem_iSup]
  simp only [← pow_add]
  constructor
  · rintro ⟨i, hi⟩
    exact ⟨n + i, Nat.le_add_right n i, hi⟩
  · rintro ⟨k, hk, hx⟩
    exact ⟨k - n, by rwa [Nat.add_sub_cancel' hk]⟩

/-- What may be left out `d` times. -/
theorem mem_add_one_pow {L : Language α} {d : Nat} {x : List α} :
    x ∈ (L + 1) ^ d ↔ ∃ i, i ≤ d ∧ x ∈ L ^ i := by
  induction d generalizing x with
  | zero =>
    constructor
    · exact fun hx => ⟨0, Nat.le_refl 0, hx⟩
    · rintro ⟨i, hi, hx⟩
      rwa [Nat.le_zero.mp hi] at hx
  | succ d ih =>
    rw [pow_succ, mul_add, mul_one, Language.mem_add, ih]
    constructor
    · rintro (hx | ⟨i, hi, hx⟩)
      · obtain ⟨y, hy, z, hz, rfl⟩ := Language.mem_mul.mp hx
        obtain ⟨i, hi, hy⟩ := ih.mp hy
        refine ⟨i + 1, Nat.succ_le_succ hi, ?_⟩
        rw [pow_succ]
        exact Language.append_mem_mul hy hz
      · exact ⟨i, Nat.le_succ_of_le hi, hx⟩
    · rintro ⟨i, hi, hx⟩
      rcases Nat.lt_or_eq_of_le hi with hlt | rfl
      · exact Or.inr ⟨i, Nat.le_of_lt_succ hlt, hx⟩
      · rw [pow_succ] at hx
        obtain ⟨y, hy, z, hz, rfl⟩ := Language.mem_mul.mp hx
        exact Or.inl (Language.append_mem_mul (ih.mpr ⟨d, Nat.le_refl d, hy⟩) hz)

theorem mem_pow_mul_add_one_pow {L : Language α} {n d : Nat} {x : List α} :
    x ∈ L ^ n * (L + 1) ^ d ↔ ∃ k, n ≤ k ∧ k ≤ n + d ∧ x ∈ L ^ k := by
  rw [Language.mem_mul]
  constructor
  · rintro ⟨y, hy, z, hz, rfl⟩
    obtain ⟨i, hi, hz⟩ := mem_add_one_pow.mp hz
    refine ⟨n + i, Nat.le_add_right n i, Nat.add_le_add_left hi n, ?_⟩
    rw [pow_add]
    exact Language.append_mem_mul hy hz
  · rintro ⟨k, hnk, hk, hx⟩
    obtain ⟨i, rfl⟩ := Nat.exists_eq_add_of_le hnk
    rw [pow_add] at hx
    obtain ⟨y, hy, z, hz, rfl⟩ := Language.mem_mul.mp hx
    exact ⟨y, hy, z, mem_add_one_pow.mpr ⟨i, Nat.le_of_add_le_add_left hk, hz⟩, rfl⟩

/-! ## Alternatives -/

/-- A state whose only steps are by ε, for the states that `E` names. -/
theorem acceptsFrom_alternatives {N : εNFA α τ} {i : τ} {E : τ → Prop}
    (h : ∀ o t, t ∈ N.step i o ↔ o = none ∧ E t) (hi : i ∉ N.accept) (x : List α) :
    x ∈ acceptsFrom N i ↔ ∃ t, E t ∧ x ∈ acceptsFrom N t := by
  rw [mem_acceptsFrom]
  constructor
  · rintro (⟨-, hi'⟩ | ⟨o, t, y, rfl, step, hy⟩)
    · exact absurd hi' hi
    · obtain ⟨rfl, ht⟩ := (h o t).mp step
      exact ⟨t, ht, hy⟩
  · rintro ⟨t, ht, hx⟩
    exact Or.inr ⟨none, t, x, rfl, (h none t).mpr ⟨rfl, ht⟩, hx⟩

end Automata
end MediaServer
