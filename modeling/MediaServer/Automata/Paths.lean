/-
Paths of an automaton with ε-transitions.

`acceptsFrom M s` is the language of a state.  Two rules carry the rest: one
step of it (`mem_acceptsFrom`), and `acceptsFrom_image`, by which a part of an
automaton that steps like another automaton has that one's languages.  What can
leave the part has `acceptsFrom_exits`: a word is read up to an accepting state
of the part, and the exit reads the rest.
-/
import Mathlib.Computability.EpsilonNFA

namespace MediaServer
namespace Automata

universe u v w

variable {α : Type u} {σ : Type v} {τ : Type w}

/-- `Path M s x t`: the automaton can go from `s` to `t` reading `x`. -/
inductive Path (M : εNFA α σ) : σ → List α → σ → Prop
  | nil (s : σ) : Path M s [] s
  | cons {s t u : σ} {x : List α} (o : Option α) (step : t ∈ M.step s o) (rest : Path M t x u) :
    Path M s (o.toList ++ x) u

namespace Path

variable {M : εNFA α σ} {s t u : σ} {x y : List α}

theorem single (o : Option α) (h : t ∈ M.step s o) : Path M s o.toList t := by
  have hp := Path.cons o h (Path.nil t)
  rwa [List.append_nil] at hp

theorem append (h : Path M s x t) (k : Path M t y u) : Path M s (x ++ y) u := by
  induction h with
  | nil => exact k
  | cons o step _ ih =>
    rw [List.append_assoc]
    exact Path.cons o step (ih k)

/-- The first step of a path. -/
theorem first (h : Path M s x u) :
    (x = [] ∧ u = s) ∨
      ∃ o t y, x = o.toList ++ y ∧ t ∈ M.step s o ∧ Path M t y u := by
  cases h with
  | nil => exact Or.inl ⟨rfl, rfl⟩
  | cons o step rest => exact Or.inr ⟨o, _, _, rfl, step, rest⟩

/-- A map that keeps every step keeps every path. -/
theorem map {N : εNFA α τ} (f : σ → τ) (hf : ∀ s o t, t ∈ M.step s o → f t ∈ N.step (f s) o)
    (h : Path M s x t) : Path N (f s) x (f t) := by
  induction h with
  | nil => exact Path.nil _
  | cons o step _ ih => exact Path.cons o (hf _ _ _ step) ih

end Path

/-- A path in this sense is one of Mathlib's, which keep the ε-steps in the label. -/
theorem path_iff_isPath {M : εNFA α σ} {s t : σ} {x : List α} :
    Path M s x t ↔ ∃ y, y.reduceOption = x ∧ M.IsPath s t y := by
  constructor
  · intro h
    induction h with
    | nil s => exact ⟨[], rfl, εNFA.IsPath.nil s⟩
    | @cons s t u x o step rest ih =>
      obtain ⟨y, hy, hp⟩ := ih
      refine ⟨o :: y, ?_, εNFA.IsPath.cons _ _ _ _ _ step hp⟩
      cases o with
      | none => rw [List.reduceOption_cons_of_none, hy]; rfl
      | some a => rw [List.reduceOption_cons_of_some, hy]; rfl
  · rintro ⟨y, rfl, h⟩
    induction h with
    | nil s => exact Path.nil s
    | cons t s u o y step rest ih =>
      have hp := Path.cons o step ih
      cases o with
      | none => rw [List.reduceOption_cons_of_none]; exact hp
      | some a => rw [List.reduceOption_cons_of_some]; exact hp

/-! ## The language of a state -/

/-- What the automaton accepts when it is started in `s`. -/
def acceptsFrom (M : εNFA α σ) (s : σ) : Language α := {x | ∃ t ∈ M.accept, Path M s x t}

theorem mem_acceptsFrom_iff_path {M : εNFA α σ} {s : σ} {x : List α} :
    x ∈ acceptsFrom M s ↔ ∃ t ∈ M.accept, Path M s x t := Iff.rfl

theorem accepts_eq_acceptsFrom {M : εNFA α σ} {s : σ} (h : M.start = {s}) :
    M.accepts = acceptsFrom M s := by
  ext x
  rw [εNFA.mem_accepts_iff_exists_path, mem_acceptsFrom_iff_path, h]
  constructor
  · rintro ⟨s', t, y, rfl, ht, hy, hp⟩
    exact ⟨t, ht, path_iff_isPath.mpr ⟨y, hy, hp⟩⟩
  · rintro ⟨t, ht, hp⟩
    obtain ⟨y, hy, hp⟩ := path_iff_isPath.mp hp
    exact ⟨s, t, y, rfl, ht, hy, hp⟩

section Language

variable {M : εNFA α σ} {s t : σ} {x : List α}

theorem acceptsFrom_of_accept (h : s ∈ M.accept) : [] ∈ acceptsFrom M s := ⟨s, h, Path.nil s⟩

theorem acceptsFrom_of_path (h : Path M s x t) {y : List α} (hy : y ∈ acceptsFrom M t) :
    x ++ y ∈ acceptsFrom M s := by
  obtain ⟨u, hu, hp⟩ := hy
  exact ⟨u, hu, h.append hp⟩

theorem acceptsFrom_of_step (o : Option α) (h : t ∈ M.step s o) (hx : x ∈ acceptsFrom M t) :
    o.toList ++ x ∈ acceptsFrom M s :=
  acceptsFrom_of_path (Path.single o h) hx

/-- A word is accepted from a state that accepts, or by a step and the rest of it. -/
theorem mem_acceptsFrom :
    x ∈ acceptsFrom M s ↔
      (x = [] ∧ s ∈ M.accept) ∨
        ∃ o t y, x = o.toList ++ y ∧ t ∈ M.step s o ∧ y ∈ acceptsFrom M t := by
  constructor
  · rintro ⟨u, hu, hp⟩
    rcases hp.first with ⟨rfl, rfl⟩ | ⟨o, t, y, rfl, step, rest⟩
    · exact Or.inl ⟨rfl, hu⟩
    · exact Or.inr ⟨o, t, y, rfl, step, u, hu, rest⟩
  · rintro (⟨rfl, hs⟩ | ⟨o, t, y, rfl, step, hy⟩)
    · exact acceptsFrom_of_accept hs
    · exact acceptsFrom_of_step o step hy

/-- A state without steps accepts the empty word or nothing. -/
theorem acceptsFrom_of_no_step (h : ∀ o, M.step s o = ∅) :
    x ∈ acceptsFrom M s ↔ x = [] ∧ s ∈ M.accept := by
  rw [mem_acceptsFrom]
  constructor
  · rintro (hx | ⟨o, t, y, -, step, -⟩)
    · exact hx
    · rw [h o] at step
      exact absurd step (Set.notMem_empty t)
  · exact Or.inl

end Language

/-! ## Parts of an automaton -/

section Parts

variable {M : εNFA α σ} {N : εNFA α τ} {P : σ → Prop} {f : σ → τ}

/-- Where `N` steps on the image of a closed part of `M` as `M` does there, its
states have the languages that `M`'s have. -/
theorem acceptsFrom_image (hP : ∀ s o t, P s → t ∈ M.step s o → P t)
    (hstep : ∀ s o, P s → N.step (f s) o = f '' M.step s o)
    (hacc : ∀ s, P s → (f s ∈ N.accept ↔ s ∈ M.accept)) {s : σ} (hs : P s) :
    acceptsFrom N (f s) = acceptsFrom M s := by
  ext x
  constructor
  · rintro ⟨u, hu, hp⟩
    generalize he : f s = q at hp
    induction hp generalizing s with
    | nil q =>
      subst he
      exact acceptsFrom_of_accept ((hacc s hs).mp hu)
    | cons o step _ ih =>
      subst he
      rw [hstep s o hs] at step
      obtain ⟨t, ht, rfl⟩ := step
      exact acceptsFrom_of_step o ht (ih (hP s o t hs ht) hu rfl)
  · rintro ⟨u, hu, hp⟩
    induction hp with
    | nil s => exact acceptsFrom_of_accept ((hacc s hs).mpr hu)
    | @cons s t u y o step _ ih =>
      have ht : f t ∈ N.step (f s) o := by
        rw [hstep s o hs]
        exact Set.mem_image_of_mem f step
      exact acceptsFrom_of_step o ht (ih (hP s o t hs step) hu)

/-- What an automaton accepts by taking one of the steps that `E` names. -/
def departures (N : εNFA α τ) (E : Option α → τ → Prop) : Language α :=
  {x | ∃ o t y, x = o.toList ++ y ∧ E o t ∧ y ∈ acceptsFrom N t}

/-- Where `N` steps on the image of a closed part of `M` as `M` does there, but
for steps out of that part, the same ones at every accepting state of `M`, and
accepts nowhere in it, a word is one of `M`'s followed by one that leaves. -/
theorem acceptsFrom_exits {E : Option α → τ → Prop}
    (hP : ∀ s o t, P s → t ∈ M.step s o → P t)
    (hstep : ∀ s o t, P s → (t ∈ N.step (f s) o ↔ t ∈ f '' M.step s o ∨ (s ∈ M.accept ∧ E o t)))
    (hacc : ∀ s, P s → f s ∉ N.accept) {s : σ} (hs : P s) :
    acceptsFrom N (f s) = acceptsFrom M s * departures N E := by
  ext x
  rw [Language.mem_mul]
  constructor
  · rintro ⟨u, hu, hp⟩
    generalize he : f s = q at hp
    induction hp generalizing s with
    | nil q =>
      subst he
      exact absurd hu (hacc s hs)
    | @cons q t u y o step rest ih =>
      subst he
      rcases (hstep s o t hs).mp step with ⟨t', ht', rfl⟩ | ⟨hsa, hE⟩
      · obtain ⟨v, hv, w, hw, rfl⟩ := ih (hP s o t' hs ht') hu rfl
        exact ⟨o.toList ++ v, acceptsFrom_of_step o ht' hv, w, hw, List.append_assoc _ _ _⟩
      · exact ⟨[], acceptsFrom_of_accept hsa, o.toList ++ y, ⟨o, t, y, rfl, hE, u, hu, rest⟩, rfl⟩
  · rintro ⟨v, ⟨p, hp, path⟩, w, ⟨o, t, y, rfl, hE, hy⟩, rfl⟩
    induction path with
    | nil s => exact acceptsFrom_of_step o ((hstep s o t hs).mpr (Or.inr ⟨hp, hE⟩)) hy
    | @cons s t' p v o' step _ ih =>
      rw [List.append_assoc]
      have ht' := (hstep s o' (f t') hs).mpr (Or.inl (Set.mem_image_of_mem f step))
      exact acceptsFrom_of_step o' ht' (ih (hP s o' t' hs step) hp)

end Parts

end Automata
end MediaServer
