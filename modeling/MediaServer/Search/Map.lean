/-
Ordered maps over a comparator that need not be total.

An ordered map decides which keys are the same by its comparator alone: two keys
are one key when neither is below the other.  For a total order that is
equality.  For a comparator that only orders some pairs it is coarser, and a map
then answers for keys it was never given.

`Locator` is what such a map is asked to do: find an entry tied with a key
whenever there is one.  Which of several tied entries it finds is left open,
since that depends on the shape of the tree and on the search used.  Every
statement below holds for all locators.

A map never holds two tied keys, because a key is only added when no entry is
tied with it.  `SearchMap` carries that as a field.
-/
import Mathlib.Data.List.Pairwise

namespace MediaServer
namespace Search

variable {α β : Type}

/-! ## Tied keys and chains -/

/-- Neither key is below the other. -/
def Tied (lt : α → α → Bool) (a b : α) : Prop := lt a b = false ∧ lt b a = false

/-- One of the two keys is below the other. -/
def Apart (lt : α → α → Bool) (a b : α) : Prop := lt a b = true ∨ lt b a = true

instance (lt : α → α → Bool) (a b : α) : Decidable (Tied lt a b) :=
  inferInstanceAs (Decidable (_ ∧ _))

instance (lt : α → α → Bool) (a b : α) : Decidable (Apart lt a b) :=
  inferInstanceAs (Decidable (_ ∨ _))

theorem not_tied {lt : α → α → Bool} {a b : α} : ¬ Tied lt a b ↔ Apart lt a b := by
  unfold Tied Apart
  cases lt a b <;> cases lt b a <;> simp

theorem Tied.symm {lt : α → α → Bool} {a b : α} (h : Tied lt a b) : Tied lt b a :=
  ⟨h.2, h.1⟩

instance (lt : α → α → Bool) : Std.Symm (Apart lt) := ⟨fun _ _ h => Or.symm h⟩

/-- Keys that a search tree can hold together: each two are apart. -/
def Chain (lt : α → α → Bool) (ks : List α) : Prop := ks.Pairwise (Apart lt)

instance (lt : α → α → Bool) (ks : List α) : Decidable (Chain lt ks) :=
  inferInstanceAs (Decidable (ks.Pairwise _))

theorem Chain.eq_of_tied {lt : α → α → Bool} {ks : List α} (h : Chain lt ks) {a b : α}
    (ha : a ∈ ks) (hb : b ∈ ks) (hab : Tied lt a b) : a = b := by
  by_contra hne
  exact not_tied.mpr (List.Pairwise.forall h ha hb hne) hab

theorem Chain.append_singleton {lt : α → α → Bool} {ks : List α} (h : Chain lt ks) {k : α}
    (hk : ∀ k' ∈ ks, ¬ Tied lt k' k) : Chain lt (ks ++ [k]) := by
  rw [Chain, List.pairwise_append]
  refine ⟨h, List.pairwise_singleton _ _, fun k' hk' k'' hk'' => ?_⟩
  rw [List.mem_singleton] at hk''
  subst hk''
  exact not_tied.mp (hk k' hk')

/-- How a map finds a key among the ones it holds.  `locate` may return any held
key that is tied with the one sought, and must return one when there is one. -/
structure Locator (lt : α → α → Bool) where
  locate : List α → α → Option α
  sound : ∀ {ks : List α} {k k' : α}, Chain lt ks → locate ks k = some k' →
    k' ∈ ks ∧ Tied lt k' k
  complete : ∀ {ks : List α} {k k' : α}, Chain lt ks → k' ∈ ks → Tied lt k' k →
    locate ks k ≠ none

def Locator.scan (lt : α → α → Bool) : Locator lt where
  locate ks k := ks.find? fun k' => decide (Tied lt k' k)
  sound _ h := ⟨List.mem_of_find?_eq_some h, by simpa using List.find?_some h⟩
  complete _ hk' ht h := by
    rw [List.find?_eq_none] at h
    exact h _ hk' (decide_eq_true ht)

/-! ## Maps -/

/-- The entries of an ordered map, in the order their keys were added. -/
structure SearchMap (lt : α → α → Bool) (β : Type) where
  entries : List (α × β)
  chain : Chain lt (entries.map Prod.fst)

namespace SearchMap

variable {lt : α → α → Bool}

def empty : SearchMap lt β := { entries := [], chain := List.Pairwise.nil }

def keys (m : SearchMap lt β) : List α := m.entries.map Prod.fst

variable [DecidableEq α]

/-- `find(k)`: the value of the entry located for `k`. -/
def find (L : Locator lt) (m : SearchMap lt β) (k : α) : Option β :=
  (L.locate m.keys k).bind fun k' => m.entries.lookup k'

/-- Entries with the value under `k` changed to `v`. -/
def replace (es : List (α × β)) (k : α) (v : β) : List (α × β) :=
  es.map fun e => if e.1 = k then (e.1, v) else e

theorem keys_replace (es : List (α × β)) (k : α) (v : β) :
    (replace es k v).map Prod.fst = es.map Prod.fst := by
  induction es with
  | nil => rfl
  | cons e es ih =>
    rw [replace, List.map_cons, List.map_cons, List.map_cons]
    congr 1
    split <;> rfl

theorem lookup_replace_self {es : List (α × β)} {k : α} (hk : k ∈ es.map Prod.fst) (v : β) :
    (replace es k v).lookup k = some v := by
  induction es with
  | nil => exact absurd hk List.not_mem_nil
  | cons e es ih =>
    by_cases he : e.1 = k
    · simp [replace, he]
    · have hrest : k ∈ es.map Prod.fst := by
        rcases List.mem_cons.mp hk with h | h
        · exact absurd h.symm he
        · exact h
      have hne : (k == e.1) = false := by simpa using Ne.symm he
      rw [replace, List.map_cons, if_neg he, List.lookup_cons, hne]
      exact ih hrest

theorem lookup_replace_of_ne {k a : α} (h : a ≠ k) (es : List (α × β)) (v : β) :
    (replace es k v).lookup a = es.lookup a := by
  induction es with
  | nil => rfl
  | cons e es ih =>
    rw [replace, List.map_cons, List.lookup_cons, List.lookup_cons]
    by_cases he : e.1 = k
    · have hne : (a == e.1) = false := by simpa [he] using h
      rw [if_pos he, hne]
      exact ih
    · rw [if_neg he]
      cases a == e.1
      · exact ih
      · rfl

/-- `m[k] = v`: assign to the entry located for `k`, and add one when there is
none. -/
def set (L : Locator lt) (m : SearchMap lt β) (k : α) (v : β) : SearchMap lt β :=
  match h : L.locate m.keys k with
  | some k' =>
    { entries := replace m.entries k' v
      chain := by rw [keys_replace]; exact m.chain }
  | none =>
    { entries := m.entries ++ [(k, v)]
      chain := by
        rw [List.map_append]
        exact m.chain.append_singleton fun k' hk' ht => L.complete m.chain hk' ht h }

variable {L : Locator lt} {m : SearchMap lt β} {k : α}

theorem entries_set_of_some {k' : α} (h : L.locate m.keys k = some k') (v : β) :
    (m.set L k v).entries = replace m.entries k' v := by
  unfold set
  split
  · rename_i k'' h''
    rw [h] at h''
    rw [Option.some.inj h'']
  · rename_i h''
    rw [h] at h''
    cases h''

theorem entries_set_of_none (h : L.locate m.keys k = none) (v : β) :
    (m.set L k v).entries = m.entries ++ [(k, v)] := by
  unfold set
  split
  · rename_i h''
    rw [h] at h''
    cases h''
  · rfl

theorem keys_set_of_some {k' : α} (h : L.locate m.keys k = some k') (v : β) :
    (m.set L k v).keys = m.keys := by
  rw [keys, entries_set_of_some h, keys_replace]
  rfl

theorem keys_set_of_none (h : L.locate m.keys k = none) (v : β) :
    (m.set L k v).keys = m.keys ++ [k] := by
  rw [keys, entries_set_of_none h, List.map_append]
  rfl

theorem mem_keys_set (a : α) (v : β) (h : a ∈ (m.set L k v).keys) : a ∈ m.keys ∨ a = k := by
  cases hl : L.locate m.keys k with
  | some k' => rw [keys_set_of_some hl] at h; exact Or.inl h
  | none => rw [keys_set_of_none hl] at h; simpa using h

theorem keys_subset_set (a : α) (v : β) (h : a ∈ m.keys) : a ∈ (m.set L k v).keys := by
  cases hl : L.locate m.keys k with
  | some k' => rw [keys_set_of_some hl]; exact h
  | none => rw [keys_set_of_none hl]; exact List.mem_append_left _ h

theorem mem_entries_set {e : α × β} {v : β} (h : e ∈ (m.set L k v).entries) :
    e ∈ m.entries ∨ e.2 = v := by
  cases hl : L.locate m.keys k with
  | some k' =>
    rw [entries_set_of_some hl, replace, List.mem_map] at h
    obtain ⟨e', he', rfl⟩ := h
    split
    · exact Or.inr rfl
    · exact Or.inl he'
  | none =>
    rw [entries_set_of_none hl, List.mem_append, List.mem_singleton] at h
    rcases h with h | rfl
    · exact Or.inl h
    · exact Or.inr rfl

/-! ## What a lookup finds -/

theorem mem_keys_iff_lookup {es : List (α × β)} {a : α} :
    a ∈ es.map Prod.fst ↔ ∃ v, es.lookup a = some v := by
  rw [← Option.isSome_iff_exists, List.lookup_isSome_iff]
  simp only [List.mem_map, beq_iff_eq]
  exact ⟨fun ⟨e, he, h⟩ => ⟨e, he, h.symm⟩, fun ⟨e, he, h⟩ => ⟨e, he, h.symm⟩⟩

theorem mem_entries_of_lookup {es : List (α × β)} {a : α} {v : β}
    (h : es.lookup a = some v) : (a, v) ∈ es := by
  obtain ⟨l₁, l₂, rfl, -⟩ := List.lookup_eq_some_iff.mp h
  exact List.mem_append_right _ List.mem_cons_self

theorem find_eq_none : m.find L k = none ↔ ∀ k' ∈ m.keys, ¬ Tied lt k' k := by
  unfold find
  cases hl : L.locate m.keys k with
  | none =>
    simp only [Option.bind_none, true_iff]
    exact fun k' hk' ht => L.complete m.chain hk' ht hl
  | some k' =>
    obtain ⟨hk', ht⟩ := L.sound m.chain hl
    obtain ⟨v, hv⟩ := mem_keys_iff_lookup.mp hk'
    simp only [Option.bind_some, hv, reduceCtorEq, false_iff]
    exact fun h => h k' hk' ht

theorem mem_of_find {v : β} (h : m.find L k = some v) :
    ∃ k', (k', v) ∈ m.entries ∧ Tied lt k' k := by
  rw [find, Option.bind_eq_some_iff] at h
  obtain ⟨k', hl, hv⟩ := h
  exact ⟨k', mem_entries_of_lookup hv, (L.sound m.chain hl).2⟩

@[simp] theorem find_empty : (empty : SearchMap lt β).find L k = none :=
  find_eq_none.mpr fun _ h => absurd h List.not_mem_nil

/-- `k` is tied with no held key but itself. -/
def Alone (m : SearchMap lt β) (k : α) : Prop := ∀ k' ∈ m.keys, Tied lt k' k → k' = k

omit [DecidableEq α] in
theorem alone_of_mem (hk : k ∈ m.keys) : m.Alone k :=
  fun _ hk' ht => m.chain.eq_of_tied hk' hk ht

/-- For a key tied with no other, a lookup goes to the entry under that very
key.  Irreflexivity is what makes a held key tied with itself. -/
theorem find_of_alone (hirr : ∀ a, lt a a = false) (h : m.Alone k) :
    m.find L k = m.entries.lookup k := by
  unfold find
  cases hl : L.locate m.keys k with
  | some k' =>
    obtain ⟨hk', ht⟩ := L.sound m.chain hl
    rw [Option.bind_some, h k' hk' ht]
  | none =>
    have hk : k ∉ m.keys := fun hk => L.complete m.chain hk ⟨hirr k, hirr k⟩ hl
    rw [Option.bind_none]
    cases hv : m.entries.lookup k with
    | none => rfl
    | some v => exact absurd (mem_keys_iff_lookup.mpr ⟨v, hv⟩) hk

theorem find_of_mem (hirr : ∀ a, lt a a = false) (hk : k ∈ m.keys) :
    m.find L k = m.entries.lookup k :=
  find_of_alone hirr (alone_of_mem hk)

/-- Every assignment lands in an entry tied with its key, be it an old entry or
the one it adds. -/
theorem exists_lookup_set (hirr : ∀ a, lt a a = false) (L : Locator lt)
    (m : SearchMap lt β) (k : α) (v : β) :
    ∃ k' ∈ (m.set L k v).keys, (k' ∈ m.keys ∨ k' = k) ∧ Tied lt k' k ∧
      (m.set L k v).find L k' = some v := by
  cases hl : L.locate m.keys k with
  | some k' =>
    obtain ⟨hk', ht⟩ := L.sound m.chain hl
    have hmem := keys_subset_set (L := L) (k := k) k' v hk'
    refine ⟨k', hmem, Or.inl hk', ht, ?_⟩
    rw [find_of_mem hirr hmem, entries_set_of_some hl]
    exact lookup_replace_self hk' v
  | none =>
    have hnot : k ∉ m.keys := fun hk => L.complete m.chain hk ⟨hirr k, hirr k⟩ hl
    have hmem : k ∈ (m.set L k v).keys := by
      rw [keys_set_of_none hl]
      exact List.mem_append_right _ List.mem_cons_self
    refine ⟨k, hmem, Or.inr rfl, ⟨hirr k, hirr k⟩, ?_⟩
    have hnone : m.entries.lookup k = none := by
      cases hv : m.entries.lookup k with
      | none => rfl
      | some w => exact absurd (mem_keys_iff_lookup.mpr ⟨w, hv⟩) hnot
    rw [find_of_mem hirr hmem, entries_set_of_none hl, List.lookup_append, hnone]
    simp

/-- Assigning to a key tied with no other adds it when it is new, and changes
the entry under it and no other. -/
theorem lookup_set (hirr : ∀ a, lt a a = false) (h : m.Alone k) (a : α) (v : β) :
    (m.set L k v).entries.lookup a = if a = k then some v else m.entries.lookup a := by
  cases hl : L.locate m.keys k with
  | some k' =>
    obtain ⟨hk', ht⟩ := L.sound m.chain hl
    have heq : k' = k := h k' hk' ht
    subst heq
    rw [entries_set_of_some hl]
    by_cases ha : a = k'
    · rw [if_pos ha, ha]
      exact lookup_replace_self hk' v
    · rw [if_neg ha, lookup_replace_of_ne ha]
  | none =>
    rw [entries_set_of_none hl, List.lookup_append]
    by_cases ha : a = k
    · subst ha
      have hnone : m.entries.lookup a = none := by
        cases hv : m.entries.lookup a with
        | none => rfl
        | some w =>
          exact absurd hl (L.complete m.chain (mem_keys_iff_lookup.mpr ⟨w, hv⟩)
            ⟨hirr a, hirr a⟩)
      simp [hnone]
    · have hne : (a == k) = false := by simpa using ha
      simp [List.lookup_cons, ha, hne]

/-- On keys that are tied with no other, the map is a finite map: an assignment
changes what is found under its own key and nothing else. -/
theorem find_set (hirr : ∀ a, lt a a = false) {a : α} (hk : m.Alone k) (ha : m.Alone a)
    (hka : Tied lt k a → k = a) (v : β) :
    (m.set L k v).find L a = if a = k then some v else m.find L a := by
  have ha' : (m.set L k v).Alone a := by
    intro k' hk' ht
    rcases mem_keys_set k' v hk' with h | rfl
    · exact ha k' h ht
    · exact hka ht
  rw [find_of_alone hirr ha', find_of_alone hirr ha, lookup_set hirr hk]

end SearchMap
end Search
end MediaServer
