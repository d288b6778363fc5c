/-
The languages that regular expressions stand for.

`words` is the usual language of a tree: the union of its alternatives, the product
of what is concatenated, and of a term with a count the powers between its bounds.
The automaton of a tree has this language when the tree is solid
(`Alternative.lang_fsm`): no concatenation holds anything that is converted to the
automaton without steps, no count is put on an empty pair of parentheses, and every
count has its bounds in order.
-/
import MediaServer.Pire.Grammar

namespace MediaServer
namespace Pire

open Computability

/-! ## Words -/

/-- The words of a language one after the other, as often as a count says. -/
def between (L : Language Input) (lower upper : Int32) : Language Input :=
  {x | ∃ k : Nat, lower.toInt ≤ k ∧ (upper = inf ∨ k ≤ upper.toInt) ∧ x ∈ L ^ k}

mutual

def Alternative.words : Alternative → Language Input
  | .single c => c.words
  | .either a c => a.words + c.words

def Conjunction.words : Conjunction → Language Input
  | .single n => n.words
  | .both c n => c.words ⊓ n.words

def Negation.words : Negation → Language Input
  | .plain c => c.words
  | .inverted c => c.wordsᶜ

def Concatenation.words : Concatenation → Language Input
  | .empty => 1
  | .append c i => c.words * i.words

def Iteration.words : Iteration → Language Input
  | .once t => t.words
  | .counted t lower upper => between t.words lower upper

def Item.words : Item → Language Input
  | .leaf l => l.words
  | .group a => a.words

end

mutual

/-- Nothing in a concatenation or under a count is bare, and counts have their bounds
in order. -/
def Alternative.Solid : Alternative → Prop
  | .single c => c.Solid
  | .either a c => a.Solid ∧ c.Solid

def Conjunction.Solid : Conjunction → Prop
  | .single n => n.Solid
  | .both c n => c.Solid ∧ n.Solid

def Negation.Solid : Negation → Prop
  | .plain c => c.Solid
  | .inverted c => c.Solid

def Concatenation.Solid : Concatenation → Prop
  | .empty => True
  | .append c i => c.Solid ∧ i.bare = false ∧ i.Solid

def Iteration.Solid : Iteration → Prop
  | .once t => t.Solid
  | .counted t lower upper => t.bare = false ∧ Ordered lower upper ∧ t.Solid

def Item.Solid : Item → Prop
  | .leaf _ => True
  | .group a => a.Solid

end

/-! ## Counts -/

/-- The cases of the action are all one. -/
theorem repeated_eq (L : Language Input) (lower upper : Int32) : repeated L L lower upper =
      if upper = inf then L ^ lower.toInt.toNat * L∗
      else L ^ lower.toInt.toNat * (L + 1) ^ (upper.toInt - lower.toInt).toNat := by
  have hzero : (0 : Int32).toInt.toNat = 0 := by decide
  have hone : (1 : Int32).toInt.toNat = 1 := by decide
  unfold repeated
  by_cases hinf : upper = inf
  · refine Eq.trans ?_ (if_pos hinf).symm
    rw [if_neg fun h => absurd (h.2.symm.trans hinf) (by decide)]
    by_cases h0 : lower = 0
    · rw [if_pos ⟨h0, hinf⟩, h0, hzero, pow_zero, one_mul]
    · rw [if_neg fun h => h0 h.1]
      by_cases h1 : lower = 1
      · rw [if_pos ⟨h1, hinf⟩, h1, hone, pow_one]
      · rw [if_neg fun h => h1 h.1]
        exact if_pos hinf
  · refine Eq.trans ?_ (if_neg hinf).symm
    by_cases h0 : lower = 0 ∧ upper = 1
    · rw [if_pos h0, h0.1, h0.2, hzero, pow_zero, one_mul]
      exact (pow_one _).symm
    · rw [if_neg h0, if_neg fun h => hinf h.2, if_neg fun h => hinf h.2]
      dsimp only
      rw [if_neg hinf]
      by_cases heq : upper = lower
      · rw [if_neg (not_not.mpr heq), heq, Int.sub_self]
        exact (mul_one _).symm
      · rw [if_pos heq]

theorem repeated_eq_between (L : Language Input) {lower upper : Int32}
    (h : Ordered lower upper) : repeated L L lower upper = between L lower upper := by
  obtain ⟨hl, hu⟩ := h
  ext x
  rw [repeated_eq]
  show _ ↔ ∃ k : Nat, lower.toInt ≤ k ∧ (upper = inf ∨ k ≤ upper.toInt) ∧ x ∈ L ^ k
  split
  · rename_i hinf
    rw [Automata.mem_pow_mul_kstar]
    refine exists_congr fun k => ?_
    have hk : lower.toInt.toNat ≤ k ↔ lower.toInt ≤ k := by omega
    rw [hk, hinf]
    simp only [true_or, true_and]
  · rename_i hinf
    rw [Automata.mem_pow_mul_add_one_pow]
    refine exists_congr fun k => ?_
    have hle := hu.resolve_left hinf
    have hk : lower.toInt.toNat ≤ k ∧ k ≤ lower.toInt.toNat + (upper.toInt - lower.toInt).toNat ↔
        lower.toInt ≤ k ∧ k ≤ upper.toInt := by omega
    rw [or_iff_right hinf, ← and_assoc, ← and_assoc, hk]

/-! ## What is accepted and what is meant -/

mutual

theorem Alternative.accepted_eq (a : Alternative) (h : a.Solid) : a.accepted = a.words := by
  match a with
  | .single c => exact Conjunction.accepted_eq c h
  | .either a c =>
    show a.accepted + c.accepted = a.words + c.words
    rw [Alternative.accepted_eq a h.1, Conjunction.accepted_eq c h.2]

theorem Conjunction.accepted_eq (c : Conjunction) (h : c.Solid) : c.accepted = c.words := by
  match c with
  | .single n => exact Negation.accepted_eq n h
  | .both c n =>
    show c.accepted ⊓ n.accepted = c.words ⊓ n.words
    rw [Conjunction.accepted_eq c h.1, Negation.accepted_eq n h.2]

theorem Negation.accepted_eq (n : Negation) (h : n.Solid) : n.accepted = n.words := by
  match n with
  | .plain c => exact Concatenation.accepted_eq c h
  | .inverted c =>
    show c.acceptedᶜ = c.wordsᶜ
    rw [Concatenation.accepted_eq c h]

theorem Concatenation.accepted_eq (c : Concatenation) (h : c.Solid) :
    c.accepted = c.words := by
  match c with
  | .empty => rfl
  | .append c i =>
    obtain ⟨hc, hbare, hi⟩ := h
    show (if i.bare then 0 else c.accepted * i.accepted) = c.words * i.words
    rw [hbare, if_neg Bool.false_ne_true, Concatenation.accepted_eq c hc,
      Iteration.accepted_eq i hi]

theorem Iteration.accepted_eq (i : Iteration) (h : i.Solid) : i.accepted = i.words := by
  match i with
  | .once t => exact Item.accepted_eq t h
  | .counted t lower upper =>
    obtain ⟨hbare, hordered, ht⟩ := h
    show repeated t.accepted (if t.bare then 0 else t.accepted) lower upper =
      between t.words lower upper
    rw [hbare, if_neg Bool.false_ne_true, Item.accepted_eq t ht, repeated_eq_between _ hordered]

theorem Item.accepted_eq (t : Item) (h : t.Solid) : t.accepted = t.words := by
  match t with
  | .leaf _ => rfl
  | .group a => exact Alternative.accepted_eq a h

end

/-- The automaton of a solid regular expression has its language. -/
theorem Alternative.lang_fsm [StdPartition Nat] (a : Alternative) {m : Fsm}
    (h : a.fsm = some m) (hs : a.Solid) : m.Valid ∧ m.lang = a.words :=
  ⟨(a.spec h).1.valid, (a.spec h).1.lang.trans (a.accepted_eq hs)⟩

/-- `^(a|.)*b{2,3}`, with letters in both cases. -/
def sampleTree : Alternative :=
  let a : Leaf := .letters ⟨{[0x41], [0x61]}, false⟩
  let b : Leaf := .letters ⟨{[0x42], [0x62]}, false⟩
  let group := Alternative.either (.single (.single (.plain (.append .empty (.once (.leaf a))))))
    (.single (.plain (.append .empty (.once (.leaf .dot)))))
  .single (.single (.plain (.append (.append (.append .empty (.once (.leaf .beginMark)))
    (.counted (.group group) 0 inf)) (.counted (.leaf b) 2 3))))

theorem positive_sampleTree : sampleTree.Positive :=
  ⟨⟨⟨trivial, trivial⟩, ⟨⟨trivial, rfl⟩, trivial, trivial⟩, by decide⟩, rfl, by decide⟩

theorem solid_sampleTree : sampleTree.Solid :=
  ⟨⟨⟨trivial, rfl, trivial⟩, rfl, rfl, by decide, ⟨trivial, rfl, trivial⟩, trivial, rfl, trivial⟩,
    rfl, rfl, by decide, trivial⟩

theorem Alternative.lang_fsm_sampleTree : ∃ m, sampleTree.fsm = some m ∧
    m.Valid ∧ m.lang = sampleTree.words := by
  obtain ⟨m, hm⟩ := sampleTree.exists_fsm positive_sampleTree
  exact ⟨m, hm, Alternative.lang_fsm sampleTree hm solid_sampleTree⟩

/-- A term with a count is read as often as the count says. -/
theorem mem_lang_counted [StdPartition Nat] {t : Item} {lower upper : Int32} {orig m : Fsm}
    (ho : t.fsm = some orig) (h : (Iteration.counted t lower upper).fsm = some m)
    (hb : t.bare = false) (x : List Input) :
    x ∈ m.lang ↔ ∃ k : Nat, lower.toInt ≤ k ∧ (upper = inf ∨ k ≤ upper.toInt) ∧
      x ∈ orig.lang ^ k := by
  obtain ⟨orig', ho', hrepeat⟩ := Option.bind_eq_some_iff.mp h
  obtain rfl := Option.some.inj (ho'.symm.trans ho)
  obtain ⟨ht, hs⟩ := t.spec ho
  have hm := means_repeatFsm ht hrepeat
  rw [ht.departing hs, hb, if_neg Bool.false_ne_true,
    repeated_eq_between _ (ordered_of_repeatFsm hrepeat)] at hm
  rw [hm.lang, ht.lang]
  rfl

theorem mem_lang_counted_two_three :
    ∃ m, (Iteration.counted (.leaf .beginMark) 2 3).fsm = some m ∧
      ([beginInput, beginInput] ∈ m.lang ↔
        ∃ k : Nat, (2 : Int32).toInt ≤ k ∧ ((3 : Int32) = inf ∨ k ≤ (3 : Int32).toInt) ∧
          [beginInput, beginInput] ∈ (Fsm.new.append beginMark).lang ^ k) := by
  obtain ⟨m, hm⟩ := (Iteration.counted (.leaf .beginMark) 2 3).exists_fsm ⟨trivial, by decide⟩
  exact ⟨m, hm, mem_lang_counted rfl hm rfl _⟩

/-! ## Concatenations that are empty -/

/-- Something in it is converted to the automaton without steps. -/
def Concatenation.HasBare : Concatenation → Prop
  | .empty => False
  | .append c i => c.HasBare ∨ i.bare = true

theorem Concatenation.accepted_of_hasBare {c : Concatenation} (h : c.HasBare) :
    c.accepted = 0 := by
  match c with
  | .empty => exact h.elim
  | .append c i =>
    show (if i.bare then 0 else c.accepted * i.accepted) = 0
    rcases h with h | h
    · rw [accepted_of_hasBare h, zero_mul, ite_self]
    · rw [if_pos h]

end Pire
end MediaServer
