/-
Automata without ε-transitions, and deterministic ones.

`acceptsFrom_closure` takes the ε-transitions away, `acceptsFrom_members` goes
from states to sets of states, where a set that holds a terminal state may stay
as it is, and `acceptsFrom_compl` is the complement of a deterministic
automaton.
-/
import MediaServer.Automata.Paths

namespace MediaServer
namespace Automata

universe u v w

variable {α : Type u} {σ : Type v} {τ : Type w}

/-! ## Taking ε-transitions away -/

/-- `t` can be reached from `s` by ε-transitions. -/
def Silent (M : εNFA α σ) : σ → σ → Prop := Relation.ReflTransGen fun s t => t ∈ M.step s none

theorem acceptsFrom_of_silent {M : εNFA α σ} {s t : σ} (h : Silent M s t) {x : List α}
    (hx : x ∈ acceptsFrom M t) : x ∈ acceptsFrom M s := by
  induction h using Relation.ReflTransGen.head_induction_on with
  | refl => exact hx
  | head step _ ih => exact acceptsFrom_of_step none step ih

section Closure

variable {M N : εNFA α σ}

theorem acceptsFrom_of_letter (h : ∀ s, M.step s none = ∅) {s : σ} {a : α} {x : List α} :
    a :: x ∈ acceptsFrom M s ↔ ∃ t ∈ M.step s (some a), x ∈ acceptsFrom M t := by
  rw [mem_acceptsFrom]
  constructor
  · rintro (⟨hx, -⟩ | ⟨o, t, y, hx, step, hy⟩)
    · exact absurd hx (List.cons_ne_nil a x)
    · cases o with
      | none =>
        rw [h s] at step
        exact absurd step (Set.notMem_empty t)
      | some b =>
        obtain ⟨rfl, rfl⟩ := List.cons.inj hx
        exact ⟨t, step, hy⟩
  · rintro ⟨t, step, hy⟩
    exact Or.inr ⟨some a, t, x, rfl, step, hy⟩

theorem nil_mem_acceptsFrom (h : ∀ s, M.step s none = ∅) {s : σ} :
    [] ∈ acceptsFrom M s ↔ s ∈ M.accept := by
  rw [mem_acceptsFrom]
  constructor
  · rintro (⟨-, hs⟩ | ⟨o, t, y, hx, step, -⟩)
    · exact hs
    · cases o with
      | none =>
        rw [h s] at step
        exact absurd step (Set.notMem_empty t)
      | some b => exact absurd hx.symm (List.cons_ne_nil b y)
  · intro hs
    exact Or.inl ⟨rfl, hs⟩

/-- Without ε-transitions a state keeps its language when it steps, and accepts,
as the states do that it reached by them. -/
theorem acceptsFrom_closure (h0 : ∀ s, N.step s none = ∅)
    (h1 : ∀ s a t, t ∈ N.step s (some a) ↔ ∃ s', Silent M s s' ∧ t ∈ M.step s' (some a))
    (hacc : ∀ s, s ∈ N.accept ↔ ∃ s', Silent M s s' ∧ s' ∈ M.accept) (s : σ) :
    acceptsFrom N s = acceptsFrom M s := by
  ext x
  constructor
  · intro hx
    induction x generalizing s with
    | nil =>
      obtain ⟨s', hs, ha⟩ := (hacc s).mp ((nil_mem_acceptsFrom h0).mp hx)
      exact acceptsFrom_of_silent hs (acceptsFrom_of_accept ha)
    | cons a x ih =>
      obtain ⟨t, step, ht⟩ := (acceptsFrom_of_letter h0).mp hx
      obtain ⟨s', hs, hst⟩ := (h1 s a t).mp step
      exact acceptsFrom_of_silent hs (acceptsFrom_of_step (some a) hst (ih t ht))
  · rintro ⟨u, hu, hp⟩
    -- the ε-steps met so far are kept until a letter, or the end, uses them
    suffices key : ∀ q, Silent M q s → x ∈ acceptsFrom N q from key s Relation.ReflTransGen.refl
    induction hp with
    | nil s =>
      intro q hq
      exact acceptsFrom_of_accept ((hacc q).mpr ⟨s, hq, hu⟩)
    | @cons s t u y o step _ ih =>
      intro q hq
      cases o with
      | none => exact ih hu q (hq.tail step)
      | some a =>
        exact acceptsFrom_of_step (some a) ((h1 q a t).mpr ⟨s, hq, step⟩)
          (ih hu t Relation.ReflTransGen.refl)

end Closure

/-! ## Sets of states -/

section Members

variable {M : εNFA α σ} {N : εNFA α τ} {Q : τ → Prop} {T : Set σ}

/-- States of `N` stand for sets of states of `M`.  `T` are states that accept
and keep themselves on every letter; a set that has one of them may keep itself
too. -/
theorem acceptsFrom_members (members : τ → Set σ) (hM : ∀ s, M.step s none = ∅)
    (hN : ∀ q, N.step q none = ∅)
    (hT : ∀ s ∈ T, s ∈ M.accept ∧ ∀ a, s ∈ M.step s (some a))
    (hstay : ∀ q a, Q q → (∃ s ∈ members q, s ∈ T) → N.step q (some a) = {q})
    (hnext : ∀ q a, Q q → (¬ ∃ s ∈ members q, s ∈ T) →
      ∃ r, N.step q (some a) = {r} ∧ Q r ∧
        ∀ t, t ∈ members r ↔ ∃ s ∈ members q, t ∈ M.step s (some a))
    (hacc : ∀ q, Q q → (q ∈ N.accept ↔ ∃ s ∈ members q, s ∈ M.accept)) {q : τ} (hq : Q q)
    (x : List α) : x ∈ acceptsFrom N q ↔ ∃ s ∈ members q, x ∈ acceptsFrom M s := by
  have hall : ∀ s ∈ T, acceptsFrom M s = ⊤ := by
    intro s hs
    refine top_unique fun y hy => ?_
    clear hy
    induction y with
    | nil => exact acceptsFrom_of_accept (hT s hs).1
    | cons a y ih => exact acceptsFrom_of_step (some a) ((hT s hs).2 a) ih
  induction x generalizing q with
  | nil => rw [nil_mem_acceptsFrom hN, hacc q hq]; simp only [nil_mem_acceptsFrom hM]
  | cons a x ih =>
    rw [acceptsFrom_of_letter hN]
    by_cases hterm : ∃ s ∈ members q, s ∈ T
    · rw [hstay q a hq hterm]
      obtain ⟨s, hs, hsT⟩ := hterm
      have hx : ∀ y, y ∈ acceptsFrom M s := fun y => by rw [hall s hsT]; exact Set.mem_univ y
      constructor
      · intro _
        exact ⟨s, hs, hx _⟩
      · intro _
        exact ⟨q, Set.mem_singleton q, (ih hq).mpr ⟨s, hs, hx x⟩⟩
    · obtain ⟨r, hr, hQr, hmem⟩ := hnext q a hq hterm
      rw [hr]
      simp only [Set.mem_singleton_iff, exists_eq_left, ih hQr, hmem,
        acceptsFrom_of_letter hM]
      constructor
      · rintro ⟨t, ⟨s, hs, hst⟩, ht⟩
        exact ⟨s, hs, t, hst, ht⟩
      · rintro ⟨s, hs, t, hst, ht⟩
        exact ⟨t, ⟨s, hs, hst⟩, ht⟩

end Members

/-! ## Deterministic automata -/

section Deterministic

variable {M : εNFA α σ} {N : εNFA α τ} {P : σ → Prop}

theorem acceptsFrom_deterministic (next : σ → α → σ) (hM : ∀ s, M.step s none = ∅)
    (hstep : ∀ s a, P s → M.step s (some a) = {next s a} ∧ P (next s a)) {s : σ} (hs : P s)
    (x : List α) : x ∈ acceptsFrom M s ↔ x.foldl next s ∈ M.accept := by
  induction x generalizing s with
  | nil => exact nil_mem_acceptsFrom hM
  | cons a x ih =>
    rw [acceptsFrom_of_letter hM, (hstep s a hs).1, List.foldl_cons, ← ih (hstep s a hs).2]
    simp only [Set.mem_singleton_iff, exists_eq_left]

/-- An automaton that follows a deterministic one and can leave it, by ε and at
the states that do not accept there, for an end without steps accepts the
complement. -/
theorem acceptsFrom_compl (next : σ → α → σ) {z : τ} {f : σ → τ} (hM : ∀ s, M.step s none = ∅)
    (hdet : ∀ s a, P s → M.step s (some a) = {next s a} ∧ P (next s a))
    (hstep : ∀ s o t, P s → (t ∈ N.step (f s) o ↔
      t ∈ f '' M.step s o ∨ (s ∉ M.accept ∧ (o = none ∧ t = z))))
    (hacc : ∀ s, P s → f s ∉ N.accept) (hz : ∀ o, N.step z o ⊆ {z})
    (hzl : ∀ a, N.step z (some a) = ∅) (hza : z ∈ N.accept) {s : σ} (hs : P s) :
    acceptsFrom N (f s) = (acceptsFrom M s)ᶜ := by
  have hend : ∀ x, x ∈ acceptsFrom N z → x = [] := by
    rintro x ⟨u, hu, hp⟩
    generalize he : z = q at hp
    induction hp with
    | nil => rfl
    | cons o step _ ih =>
      subst he
      cases o with
      | none => exact ih hu (hz none step).symm
      | some a =>
        rw [hzl a] at step
        exact absurd step (Set.notMem_empty _)
  ext x
  show x ∈ acceptsFrom N (f s) ↔ ¬ x ∈ acceptsFrom M s
  rw [acceptsFrom_deterministic next hM hdet hs]
  constructor
  · rintro ⟨u, hu, hp⟩
    generalize he : f s = q at hp
    induction hp generalizing s with
    | nil q =>
      subst he
      exact absurd hu (hacc s hs)
    | @cons q t u y o step rest ih =>
      subst he
      rcases (hstep s o t hs).mp step with ⟨t', ht', rfl⟩ | ⟨hsa, rfl, rfl⟩
      · cases o with
        | none =>
          rw [hM s] at ht'
          exact absurd ht' (Set.notMem_empty t')
        | some a =>
          rw [(hdet s a hs).1] at ht'
          rw [Set.mem_singleton_iff.mp ht'] at ih
          exact ih (hdet s a hs).2 hu rfl
      · rw [hend y ⟨u, hu, rest⟩]
        exact hsa
  · intro hx
    induction x generalizing s with
    | nil =>
      exact acceptsFrom_of_step none ((hstep s none z hs).mpr (Or.inr ⟨hx, rfl, rfl⟩))
        (acceptsFrom_of_accept hza)
    | cons a x ih =>
      have hmem : next s a ∈ M.step s (some a) := by
        rw [(hdet s a hs).1]
        exact Set.mem_singleton _
      have hstep' := (hstep s (some a) _ hs).mpr (Or.inl (Set.mem_image_of_mem f hmem))
      exact acceptsFrom_of_step (some a) hstep' (ih (hdet s a hs).2 hx)

end Deterministic

end Automata
end MediaServer
