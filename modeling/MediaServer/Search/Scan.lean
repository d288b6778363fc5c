/-
The first element of a list with a property, and searching for it with a test
that may fail.

Two properties have the same first element exactly when they agree on every
element before which neither of them holds: `agree_iff`.

`List.findM?` over `Except` tries one element after the other.  It stops at the
first one that passes and gives up at the first one whose test fails.  A result
is an element that passes together with the elements before it, none of which
does: `findM?_eq_some_iff`.

The result depends on the order of the list, unless no test fails and whatever
passes is the same element: `findM?_eq_of_perm`.
-/
import Mathlib.Data.List.Perm.Basic

namespace MediaServer
namespace Search

/-! ## First elements -/

section First

variable {α : Type} {P Q : α → Prop}

def IsFirst (P : α → Prop) (l : List α) (a : α) : Prop :=
  ∃ pre post, l = pre ++ a :: post ∧ P a ∧ ∀ b ∈ pre, ¬ P b

/-- Both properties say the same of each element that could be the first of either. -/
def Agree (P Q : α → Prop) (l : List α) : Prop :=
  ∀ pre c post, l = pre ++ c :: post → (∀ b ∈ pre, ¬ P b ∧ ¬ Q b) → (P c ↔ Q c)

theorem IsFirst.holds {l : List α} {a : α} (h : IsFirst P l a) : P a := by
  obtain ⟨pre, post, -, ha, -⟩ := h
  exact ha

theorem IsFirst.mem {l : List α} {a : α} (h : IsFirst P l a) : a ∈ l := by
  obtain ⟨pre, post, rfl, -, -⟩ := h
  exact List.mem_append_right pre List.mem_cons_self

theorem find?_eq_some_iff_isFirst {p : α → Bool} {l : List α} {a : α} :
    l.find? p = some a ↔ IsFirst (fun b => p b = true) l a := by
  rw [List.find?_eq_some_iff_append]
  constructor
  · intro hcase
    obtain ⟨ha, pre, post, hsplit, hpre⟩ := hcase
    exact ⟨pre, post, hsplit, ha, fun b hb => by simpa using hpre b hb⟩
  · intro hcase
    obtain ⟨pre, post, hsplit, ha, hpre⟩ := hcase
    exact ⟨ha, pre, post, hsplit, fun b hb => by simpa using hpre b hb⟩

theorem isFirst_cons_of_holds {c : α} (hc : P c) (l : List α) (a : α) :
    IsFirst P (c :: l) a ↔ a = c := by
  constructor
  · intro hcase
    obtain ⟨pre, post, heq, -, hpre⟩ := hcase
    cases pre with
    | nil => exact (List.cons.inj heq).1.symm
    | cons d pre =>
      obtain ⟨rfl, -⟩ := List.cons.inj heq
      exact absurd hc (hpre _ List.mem_cons_self)
  · intro heq
    subst heq
    exact ⟨[], l, rfl, hc, fun b hb => absurd hb List.not_mem_nil⟩

theorem isFirst_cons_of_not {c : α} (hc : ¬ P c) (l : List α) (a : α) :
    IsFirst P (c :: l) a ↔ IsFirst P l a := by
  constructor
  · intro hcase
    obtain ⟨pre, post, heq, ha, hpre⟩ := hcase
    cases pre with
    | nil =>
      obtain ⟨rfl, -⟩ := List.cons.inj heq
      exact absurd ha hc
    | cons d pre =>
      obtain ⟨-, rfl⟩ := List.cons.inj heq
      exact ⟨pre, post, rfl, ha, fun b hb => hpre b (List.mem_cons_of_mem d hb)⟩
  · intro hcase
    obtain ⟨pre, post, rfl, ha, hpre⟩ := hcase
    exact ⟨c :: pre, post, rfl, ha, List.forall_mem_cons.mpr ⟨hc, hpre⟩⟩

theorem exists_isFirst {l : List α} (h : ∃ a ∈ l, P a) : ∃ a, IsFirst P l a := by
  induction l with
  | nil =>
    obtain ⟨a, ha, -⟩ := h
    cases ha
  | cons c l ih =>
    by_cases hc : P c
    · exact ⟨c, (isFirst_cons_of_holds hc l c).mpr rfl⟩
    · obtain ⟨a, ha, hpa⟩ := h
      have htail : ∃ a ∈ l, P a := by
        rcases List.mem_cons.mp ha with rfl | ha
        · exact absurd hpa hc
        · exact ⟨a, ha, hpa⟩
      obtain ⟨b, hb⟩ := ih htail
      exact ⟨b, (isFirst_cons_of_not hc l b).mpr hb⟩

theorem IsFirst.unique {l : List α} {a b : α} (ha : IsFirst P l a) (hb : IsFirst P l b) :
    a = b := by
  induction l with
  | nil => exact absurd ha.mem List.not_mem_nil
  | cons c l ih =>
    by_cases hc : P c
    · rw [isFirst_cons_of_holds hc] at ha hb
      rw [ha, hb]
    · rw [isFirst_cons_of_not hc] at ha hb
      exact ih ha hb

/-- The first element with a property is the first with a stronger one, if it has it. -/
theorem IsFirst.of_imp {l : List α} {a : α} (h : IsFirst Q l a) (himp : ∀ b, P b → Q b)
    (ha : P a) : IsFirst P l a := by
  obtain ⟨pre, post, hsplit, -, hpre⟩ := h
  exact ⟨pre, post, hsplit, ha, fun b hb hp => hpre b hb (himp b hp)⟩

theorem agree_cons {c : α} {l : List α} :
    Agree P Q (c :: l) ↔ (P c ↔ Q c) ∧ (¬ P c → Agree P Q l) := by
  constructor
  · intro h
    have hc := h [] c l rfl fun b hb => absurd hb List.not_mem_nil
    refine ⟨hc, fun hp pre d post heq hpre => ?_⟩
    refine h (c :: pre) d post (by rw [heq]; rfl) (List.forall_mem_cons.mpr ⟨⟨hp, ?_⟩, hpre⟩)
    exact fun hq => hp (hc.mpr hq)
  · intro hcase pre d post heq hpre
    obtain ⟨hc, hl⟩ := hcase
    cases pre with
    | nil =>
      obtain ⟨rfl, -⟩ := List.cons.inj heq
      exact hc
    | cons b pre =>
      obtain ⟨rfl, rfl⟩ := List.cons.inj heq
      obtain ⟨hhead, htail⟩ := List.forall_mem_cons.mp hpre
      exact hl hhead.1 pre d post rfl htail

theorem agree_iff {l : List α} :
    Agree P Q l ↔ ∀ a, IsFirst P l a ↔ IsFirst Q l a := by
  induction l with
  | nil =>
    refine ⟨fun _ a => ⟨fun h => absurd h.mem List.not_mem_nil,
      fun h => absurd h.mem List.not_mem_nil⟩, fun _ pre c post heq => ?_⟩
    exact absurd heq.symm (by simp)
  | cons c l ih =>
    rw [agree_cons, ih]
    constructor
    · intro hcase a
      obtain ⟨hc, hl⟩ := hcase
      by_cases hp : P c
      · rw [isFirst_cons_of_holds hp, isFirst_cons_of_holds (hc.mp hp)]
      · rw [isFirst_cons_of_not hp, isFirst_cons_of_not fun hq => hp (hc.mpr hq)]
        exact hl hp a
    · intro h
      have hc : P c ↔ Q c := by
        constructor
        · exact fun hp => ((h c).mp ((isFirst_cons_of_holds hp l c).mpr rfl)).holds
        · exact fun hq => ((h c).mpr ((isFirst_cons_of_holds hq l c).mpr rfl)).holds
      refine ⟨hc, fun hp a => ?_⟩
      rw [← isFirst_cons_of_not hp, ← isFirst_cons_of_not fun hq => hp (hc.mpr hq)]
      exact h a

end First

/-! ## Tests that may fail -/

variable {α β ε : Type} {f : α → Except ε Bool}

theorem findM?_cons (f : α → Except ε Bool) (a : α) (l : List α) :
    (a :: l).findM? f =
      match f a with
      | .ok true => .ok (some a)
      | .ok false => l.findM? f
      | .error e => .error e := by
  rw [List.findM?]
  rcases f a with e | _ | _ <;> rfl

theorem findM?_cons_of_true {a : α} (h : f a = .ok true) (l : List α) :
    (a :: l).findM? f = .ok (some a) := by
  rw [findM?_cons, h]

theorem findM?_cons_of_false {a : α} (h : f a = .ok false) (l : List α) :
    (a :: l).findM? f = l.findM? f := by
  rw [findM?_cons, h]

/-- Searching a list of images is searching the list with the test composed. -/
theorem findM?_map (g : β → α) (l : List β) :
    (l.map g).findM? f = (l.findM? fun b => f (g b)).map (Option.map g) := by
  induction l with
  | nil => rfl
  | cons b l ih =>
    rw [List.map_cons, findM?_cons, findM?_cons, ih]
    rcases f (g b) with e | _ | _ <;> rfl

theorem findM?_eq_none_iff {l : List α} :
    l.findM? f = .ok none ↔ ∀ a ∈ l, f a = .ok false := by
  induction l with
  | nil => exact ⟨fun _ a ha => absurd ha List.not_mem_nil, fun _ => rfl⟩
  | cons a l ih =>
    rw [List.forall_mem_cons, ← ih, findM?_cons]
    rcases f a with e | _ | _
    · exact ⟨nofun, nofun⟩
    · exact ⟨fun h => ⟨rfl, h⟩, fun h => h.2⟩
    · exact ⟨nofun, nofun⟩

theorem findM?_eq_some_iff {l : List α} {a : α} :
    l.findM? f = .ok (some a) ↔
      ∃ pre post, l = pre ++ a :: post ∧ f a = .ok true ∧ ∀ b ∈ pre, f b = .ok false := by
  induction l with
  | nil =>
    constructor
    · intro h
      cases h
    · intro hcase
      obtain ⟨pre, post, h, -⟩ := hcase
      exact absurd h.symm (by simp)
  | cons c l ih =>
    constructor
    · intro h
      rw [findM?_cons] at h
      rcases hc : f c with e | _ | _
      · rw [hc] at h
        cases h
      · rw [hc] at h
        obtain ⟨pre, post, rfl, ha, hpre⟩ := ih.mp h
        exact ⟨c :: pre, post, rfl, ha, List.forall_mem_cons.mpr ⟨hc, hpre⟩⟩
      · rw [hc] at h
        cases h
        exact ⟨[], l, rfl, hc, fun b hb => absurd hb List.not_mem_nil⟩
    · intro hcase
      obtain ⟨pre, post, heq, ha, hpre⟩ := hcase
      cases pre with
      | nil =>
        obtain ⟨rfl, -⟩ := List.cons.inj heq
        exact findM?_cons_of_true ha l
      | cons d pre =>
        obtain ⟨rfl, rfl⟩ := List.cons.inj heq
        rw [findM?_cons_of_false (hpre _ List.mem_cons_self)]
        exact ih.mpr ⟨pre, post, rfl, ha, fun b hb => hpre b (List.mem_cons_of_mem _ hb)⟩

theorem mem_of_findM? {l : List α} {a : α} (h : l.findM? f = .ok (some a)) :
    a ∈ l ∧ f a = .ok true := by
  obtain ⟨pre, post, rfl, ha, -⟩ := findM?_eq_some_iff.mp h
  exact ⟨List.mem_append_right pre List.mem_cons_self, ha⟩

/-- The test that fails is one of the list. -/
theorem mem_of_findM?_error {l : List α} {e : ε} (h : l.findM? f = .error e) :
    ∃ a ∈ l, f a = .error e := by
  induction l with
  | nil => cases h
  | cons a l ih =>
    rw [findM?_cons] at h
    rcases ha : f a with e' | _ | _
    · rw [ha] at h
      cases h
      exact ⟨a, List.mem_cons_self, ha⟩
    · rw [ha] at h
      obtain ⟨b, hb, hfail⟩ := ih h
      exact ⟨b, List.mem_cons_of_mem a hb, hfail⟩
    · rw [ha] at h
      cases h

theorem findM?_returns {l : List α} (hok : ∀ a ∈ l, ∃ b, f a = .ok b) :
    ∃ found, l.findM? f = .ok found := by
  rcases hl : l.findM? f with e | found
  · obtain ⟨a, ha, hfail⟩ := mem_of_findM?_error hl
    obtain ⟨b, hb⟩ := hok a ha
    rw [hfail] at hb
    cases hb
  · exact ⟨found, rfl⟩

/-- When no test fails and all elements that pass are the same, the order of the
list does not matter. -/
theorem findM?_eq_of_perm {l l' : List α} (hperm : l.Perm l')
    (hok : ∀ a ∈ l, ∃ b, f a = .ok b)
    (hone : ∀ a ∈ l, ∀ b ∈ l, f a = .ok true → f b = .ok true → a = b) :
    l.findM? f = l'.findM? f := by
  obtain ⟨found, hl⟩ := findM?_returns hok
  obtain ⟨found', hl'⟩ := findM?_returns fun a ha => hok a (hperm.mem_iff.mpr ha)
  rw [hl, hl']
  cases found with
  | none =>
    cases found' with
    | none => rfl
    | some b =>
      obtain ⟨hb, hbtrue⟩ := mem_of_findM? hl'
      have hfalse := findM?_eq_none_iff.mp hl b (hperm.mem_iff.mpr hb)
      rw [hbtrue] at hfalse
      cases hfalse
  | some a =>
    obtain ⟨ha, hatrue⟩ := mem_of_findM? hl
    cases found' with
    | none =>
      have hfalse := findM?_eq_none_iff.mp hl' a (hperm.mem_iff.mp ha)
      rw [hatrue] at hfalse
      cases hfalse
    | some b =>
      obtain ⟨hb, hbtrue⟩ := mem_of_findM? hl'
      rw [hone a ha b (hperm.mem_iff.mpr hb) hatrue hbtrue]

/-! ## What a search says -/

theorem map_isSome_returns_iff {found : Except ε (Option α)} :
    (∃ b, found.map Option.isSome = .ok b) ↔ ∃ a, found = .ok a := by
  cases found with
  | error e =>
    refine iff_of_false (fun hcase => ?_) fun hcase => ?_
    · obtain ⟨_, h⟩ := hcase
      cases h
    · obtain ⟨_, h⟩ := hcase
      cases h
  | ok a => exact iff_of_true ⟨_, rfl⟩ ⟨a, rfl⟩

theorem map_isSome_eq_true_iff {found : Except ε (Option α)} :
    found.map Option.isSome = .ok true ↔ ∃ a, found = .ok (some a) := by
  rcases found with e | _ | a
  · refine iff_of_false (fun h => ?_) fun hcase => ?_
    · cases h
    · obtain ⟨_, h⟩ := hcase
      cases h
  · refine iff_of_false (fun h => ?_) fun hcase => ?_
    · cases h
    · obtain ⟨_, h⟩ := hcase
      cases h
  · exact iff_of_true rfl ⟨a, rfl⟩

theorem map_isSome_eq_false_iff {found : Except ε (Option α)} :
    found.map Option.isSome = .ok false ↔ found = .ok none := by
  rcases found with e | _ | a
  · refine iff_of_false (fun h => ?_) fun h => ?_
    · cases h
    · cases h
  · exact iff_of_true rfl rfl
  · refine iff_of_false (fun h => ?_) fun h => ?_
    · cases h
    · cases h

end Search
end MediaServer
