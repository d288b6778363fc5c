/-
Search trees find keys by descending with the comparator.

A tree is consistent with a comparator when its keys, read from left to right,
ascend.  `lowerBound` is the descent that remembers the last node at which it
turned left, and `lowerBound_eq` says what it computes on any consistent tree,
whatever its shape: the first key from the left that is not below the one
sought.  `find` accepts that key unless the one sought is below it.

Only transitivity of the comparator is needed for the descent.  A tree built by
inserting keys one by one is the locator `Locator.tree`.
-/
import Mathlib.Data.List.Induction
import MediaServer.Search.Map

namespace MediaServer
namespace Search

variable {α : Type}

inductive Tree (α : Type) where
  | leaf : Tree α
  | node (left : Tree α) (key : α) (right : Tree α) : Tree α

namespace Tree

def keys : Tree α → List α
  | leaf => []
  | node l x r => l.keys ++ x :: r.keys

/-- The keys ascend from left to right. -/
def Consistent (lt : α → α → Bool) (t : Tree α) : Prop :=
  t.keys.Pairwise fun a b => lt a b = true

theorem consistent_node {lt : α → α → Bool} {l r : Tree α} {x : α} :
    Consistent lt (node l x r) ↔
      (Consistent lt l ∧ ∀ a ∈ l.keys, lt a x = true) ∧
        (Consistent lt r ∧ ∀ b ∈ r.keys, lt x b = true) ∧
          ∀ a ∈ l.keys, ∀ b ∈ r.keys, lt a b = true := by
  unfold Consistent
  rw [keys, List.pairwise_append, List.pairwise_cons]
  constructor
  · intro hcase
    obtain ⟨hl, ⟨hx, hr⟩, hlr⟩ := hcase
    exact ⟨⟨hl, fun a ha => hlr a ha x List.mem_cons_self⟩, ⟨hr, hx⟩,
      fun a ha b hb => hlr a ha b (List.mem_cons_of_mem x hb)⟩
  · intro hcase
    obtain ⟨⟨hl, hlx⟩, ⟨hr, hx⟩, hlr⟩ := hcase
    refine ⟨hl, ⟨hx, hr⟩, fun a ha b hb => ?_⟩
    rcases List.mem_cons.mp hb with rfl | hb
    · exact hlx a ha
    · exact hlr a ha b hb

/-! ## Descent -/

/-- The descent for `k`, with the last node at which it turned left. -/
def lowerBound (lt : α → α → Bool) (k : α) : Tree α → Option α → Option α
  | leaf, y => y
  | node l x r, y => if lt x k then lowerBound lt k r y else lowerBound lt k l (some x)

/-- The key found for `k`: the one the descent ends with, unless `k` is below it. -/
def find (lt : α → α → Bool) (t : Tree α) (k : α) : Option α :=
  (lowerBound lt k t none).filter fun x => !lt k x

/-- The descent ends with the first key from the left that is not below `k`. -/
theorem lowerBound_eq {lt : α → α → Bool}
    (htrans : ∀ a b c, lt a b = true → lt b c = true → lt a c = true) (k : α)
    {t : Tree α} (h : Consistent lt t) (y : Option α) :
    lowerBound lt k t y = (t.keys.find? fun x => !lt x k).or y := by
  induction t generalizing y with
  | leaf => rfl
  | node l x r ihl ihr =>
    obtain ⟨⟨hl, hlx⟩, ⟨hr, -⟩, -⟩ := consistent_node.mp h
    rw [lowerBound, keys, List.find?_append, List.find?_cons]
    by_cases hx : lt x k = true
    · -- The node is below `k`, and with it everything to its left.
      have hnone : l.keys.find? (fun x => !lt x k) = none := by
        rw [List.find?_eq_none]
        intro a ha
        simp [htrans a x k (hlx a ha) hx]
      rw [if_pos hx, ihr hr, hnone, hx]
      rfl
    · rw [if_neg hx, ihl hl, Bool.eq_false_iff.mpr hx]
      cases l.keys.find? (fun x => !lt x k) <;> rfl

theorem find_sound {lt : α → α → Bool}
    (htrans : ∀ a b c, lt a b = true → lt b c = true → lt a c = true)
    {t : Tree α} (h : Consistent lt t) {k k' : α} (hf : find lt t k = some k') :
    k' ∈ t.keys ∧ Tied lt k' k := by
  rw [find, lowerBound_eq htrans k h, Option.or_none, Option.filter_eq_some_iff] at hf
  exact ⟨List.mem_of_find?_eq_some hf.1, by simpa using List.find?_some hf.1,
    by simpa using hf.2⟩

/-- A key tied with `k` is found, or another one tied with `k` before it.  A
first key above `k` would be above the tied key as well. -/
theorem find_complete {lt : α → α → Bool}
    (htrans : ∀ a b c, lt a b = true → lt b c = true → lt a c = true)
    {t : Tree α} (h : Consistent lt t) {k k' : α} (hk' : k' ∈ t.keys) (ht : Tied lt k' k) :
    find lt t k ≠ none := by
  rw [find, lowerBound_eq htrans k h, Option.or_none]
  cases hx : t.keys.find? (fun x => !lt x k) with
  | none =>
    have hn := List.find?_eq_none.mp hx k' hk'
    simp [ht.1] at hn
  | some x =>
    obtain ⟨-, before, after, hkeys, hbefore⟩ := List.find?_eq_some_iff_append.mp hx
    have hle : x = k' ∨ lt x k' = true := by
      rw [Consistent, hkeys, List.pairwise_append, List.pairwise_cons] at h
      rw [hkeys, List.mem_append, List.mem_cons] at hk'
      rcases hk' with hb | rfl | ha
      · have hlt := hbefore k' hb
        simp [ht.1] at hlt
      · exact Or.inl rfl
      · exact Or.inr (h.2.1.1 k' ha)
    have hkx : lt k x = false := by
      rcases hle with rfl | hlt
      · exact ht.2
      · rw [Bool.eq_false_iff]
        intro hkx
        have := htrans k x k' hkx hlt
        rw [ht.2] at this
        cases this
    simp [Option.filter, hkx]

/-! ## Insertion -/

def insert (lt : α → α → Bool) (k : α) : Tree α → Tree α
  | leaf => node leaf k leaf
  | node l x r => if lt k x then node (insert lt k l) x r else node l x (insert lt k r)

theorem mem_keys_insert (lt : α → α → Bool) (k a : α) (t : Tree α) :
    a ∈ (insert lt k t).keys ↔ a = k ∨ a ∈ t.keys := by
  induction t with
  | leaf => simp [insert, keys]
  | node l x r ihl ihr =>
    rw [insert]
    split
    · simp only [keys, List.mem_append, List.mem_cons, ihl, or_assoc]
    · simp only [keys, List.mem_append, List.mem_cons, ihr]
      rw [or_left_comm (a := a = x), or_left_comm (b := a = k)]

theorem consistent_insert {lt : α → α → Bool}
    (htrans : ∀ a b c, lt a b = true → lt b c = true → lt a c = true) {k : α} {t : Tree α}
    (h : Consistent lt t) (hk : ∀ x ∈ t.keys, Apart lt x k) :
    Consistent lt (insert lt k t) := by
  induction t with
  | leaf => exact List.pairwise_singleton _ _
  | node l x r ihl ihr =>
    obtain ⟨⟨hl, hlx⟩, ⟨hr, hxr⟩, hlr⟩ := consistent_node.mp h
    have hkl : ∀ a ∈ l.keys, Apart lt a k := fun a ha =>
      hk a (List.mem_append_left _ ha)
    have hkr : ∀ b ∈ r.keys, Apart lt b k := fun b hb =>
      hk b (List.mem_append_right _ (List.mem_cons_of_mem x hb))
    have hkx : Apart lt x k := hk x (List.mem_append_right _ List.mem_cons_self)
    rw [insert]
    split
    · rename_i hlt
      refine consistent_node.mpr ⟨⟨ihl hl hkl, fun a ha => ?_⟩, ⟨hr, hxr⟩, fun a ha b hb => ?_⟩
      · rcases (mem_keys_insert lt k a l).mp ha with rfl | ha
        · exact hlt
        · exact hlx a ha
      · rcases (mem_keys_insert lt k a l).mp ha with rfl | ha
        · exact htrans _ x b hlt (hxr b hb)
        · exact hlr a ha b hb
    · rename_i hnlt
      have hlt : lt x k = true := hkx.resolve_right hnlt
      refine consistent_node.mpr ⟨⟨hl, hlx⟩, ⟨ihr hr hkr, fun b hb => ?_⟩, fun a ha b hb => ?_⟩
      · rcases (mem_keys_insert lt k b r).mp hb with rfl | hb
        · exact hlt
        · exact hxr b hb
      · rcases (mem_keys_insert lt k b r).mp hb with rfl | hb
        · exact htrans a x _ (hlx a ha) hlt
        · exact hlr a ha b hb

def ofKeys (lt : α → α → Bool) (ks : List α) : Tree α :=
  ks.foldl (fun t k => insert lt k t) leaf

theorem ofKeys_append_singleton (lt : α → α → Bool) (ks : List α) (k : α) :
    ofKeys lt (ks ++ [k]) = insert lt k (ofKeys lt ks) := by
  rw [ofKeys, List.foldl_append]
  rfl

theorem mem_keys_ofKeys (lt : α → α → Bool) (ks : List α) (a : α) :
    a ∈ (ofKeys lt ks).keys ↔ a ∈ ks := by
  induction ks using List.reverseRecOn with
  | nil => rfl
  | append_singleton ks k ih =>
    rw [ofKeys_append_singleton, mem_keys_insert, ih, List.mem_append, List.mem_singleton]
    exact Or.comm

theorem consistent_ofKeys {lt : α → α → Bool}
    (htrans : ∀ a b c, lt a b = true → lt b c = true → lt a c = true)
    {ks : List α} (h : Chain lt ks) : Consistent lt (ofKeys lt ks) := by
  induction ks using List.reverseRecOn with
  | nil => exact List.Pairwise.nil
  | append_singleton ks k ih =>
    rw [Chain, List.pairwise_append] at h
    rw [ofKeys_append_singleton]
    refine consistent_insert htrans (ih h.1) fun x hx => ?_
    exact h.2.2 x ((mem_keys_ofKeys lt ks x).mp hx) k List.mem_cons_self

end Tree

/-- A search tree over a transitive comparator is a locator. -/
def Locator.tree (lt : α → α → Bool)
    (htrans : ∀ a b c, lt a b = true → lt b c = true → lt a c = true) : Locator lt where
  locate ks k := (Tree.ofKeys lt ks).find lt k
  sound hc h := by
    obtain ⟨hk', ht⟩ := Tree.find_sound htrans (Tree.consistent_ofKeys htrans hc) h
    exact ⟨(Tree.mem_keys_ofKeys lt _ _).mp hk', ht⟩
  complete hc hk' ht :=
    Tree.find_complete htrans (Tree.consistent_ofKeys htrans hc)
      ((Tree.mem_keys_ofKeys lt _ _).mpr hk') ht

end Search
end MediaServer
