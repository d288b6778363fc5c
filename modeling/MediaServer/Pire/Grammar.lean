/-
Regular expressions as trees of the grammar, and the automata that the actions of
the grammar make of them.

`Alternative.spec` says what the automaton of each symbol accepts.  That is what the
symbol stands for but for one case: an empty pair of parentheses, and what is
repeated no times, are converted to the automaton without steps
(`Iteration.bare`), and a concatenation with one of them accepts nothing.
-/
import MediaServer.Pire.Complement
import MediaServer.Pire.DeadEnds
import MediaServer.Pire.Encoding
import MediaServer.Pire.Iteration
import Mathlib.Data.List.Lex

namespace MediaServer
namespace Pire

open Computability

/-! ## Terms -/

/-- Some strings of characters, or all characters but those. -/
structure CharacterRange where
  strings : Finset (List Nat)
  negated : Bool
  deriving DecidableEq

/-- `Inf`, where there is no upper bound. -/
def inf : Int32 := -1

/-- What the lexer returns before the end. -/
inductive Term
  | letters (range : CharacterRange)
  | count (lower upper : Int32)
  | dot
  | opening
  | closing
  | or
  | and
  | not
  | beginMark
  | endMark
  deriving DecidableEq

/-- The terms that are regular expressions by themselves. -/
inductive Leaf
  | letters (range : CharacterRange)
  | dot
  | beginMark
  | endMark
  deriving DecidableEq

def Leaf.term : Leaf → Term
  | .letters range => .letters range
  | .dot => .dot
  | .beginMark => .beginMark
  | .endMark => .endMark

/-! ## Trees -/

mutual

/-- `alternative`, one constructor for each rule, as for the others -/
inductive Alternative
  | single (c : Conjunction)
  | either (a : Alternative) (c : Conjunction)

inductive Conjunction
  | single (n : Negation)
  | both (c : Conjunction) (n : Negation)

inductive Negation
  | plain (c : Concatenation)
  | inverted (c : Concatenation)

inductive Concatenation
  | empty
  | append (c : Concatenation) (i : Iteration)

inductive Iteration
  | once (t : Item)
  | counted (t : Item) (lower upper : Int32)

/-- `term` -/
inductive Item
  | leaf (l : Leaf)
  | group (a : Alternative)

end

/-! ## Automata -/

/-- A string of characters in UTF-8. -/
def spell (s : List Nat) : List UInt8 :=
  if s.any fun c => Utf8.toLocal c = [] then [] else s.flatMap Utf8.toLocal

def appendRange (a : Fsm) (range : CharacterRange) : Option Fsm :=
  let strings := (range.strings.sort.map spell).filter (· ≠ [])
  if strings = [] then some Fsm.makeFalse else a.appendStrings strings

section Actions

variable [StdPartition Nat]

/-- `ConvertToFSM` of a term -/
def Leaf.convertToFsm : Leaf → Option Fsm
  | .dot => some (Utf8.appendDot Fsm.new)
  | .beginMark => some (Fsm.new.append Pire.beginMark)
  | .endMark => some (Fsm.new.append Pire.endMark)
  | .letters range => do
    let a ← appendRange Fsm.new range
    if range.negated then
      let x ← (Utf8.appendDot Fsm.new).complement
      let a ← (a.alternate x).complement
      some a.removeDeadEnds
    else some a

/-- A difference of counts as a `size_t` -/
def toSize (n : Int) : Nat := (n % 2 ^ 64).toNat

/-- The action of a concatenation.  A range and a dot are put behind what there is
without an automaton of their own, which `rhs` is for the others. -/
def appendIteration (a : Fsm) (i : Iteration) (rhs : Option Fsm) : Option Fsm :=
  match i with
  | .once (.leaf (.letters ⟨strings, false⟩)) => appendRange a ⟨strings, false⟩
  | .once (.leaf .dot) => some (Utf8.appendDot a)
  | _ => rhs.map a.concatenate

/-- The action of a term with a count: nothing where there are too many copies. -/
def repeatFsm (orig : Fsm) (lower upper : Int32) : Option Fsm :=
  if lower = 0 ∧ upper = 1 then some (orig.alternate Fsm.new)
  else if lower = 0 ∧ upper = inf then some orig.iterate
  else if lower = 1 ∧ upper = inf then some (orig.concatenate orig.iterate)
  else
    (orig.multiply (toSize lower.toInt)).bind fun cur =>
      if upper = inf then some (cur.concatenate orig.iterate)
      else if upper ≠ lower then
        ((orig.alternate Fsm.new).multiply (toSize (upper.toInt - lower.toInt))).map
          cur.concatenate
      else some cur

mutual

/-- The value of each symbol, converted to an automaton; nothing where an action
throws. -/
def Alternative.fsm : Alternative → Option Fsm
  | .single c => c.fsm
  | .either a c => do
    let a ← a.fsm
    let c ← c.fsm
    some (a.alternate c)

def Conjunction.fsm : Conjunction → Option Fsm
  | .single n => n.fsm
  | .both c n => do
    let c ← c.fsm
    let n ← n.fsm
    c.intersect n

def Negation.fsm : Negation → Option Fsm
  | .plain c => c.fsm
  | .inverted c => do
    let c ← c.fsm
    c.complement

def Concatenation.fsm : Concatenation → Option Fsm
  | .empty => some Fsm.new
  | .append c i => do
    let a ← c.fsm
    appendIteration a i i.fsm

def Iteration.fsm : Iteration → Option Fsm
  | .once t => t.fsm
  | .counted t lower upper => do
    let orig ← t.fsm
    repeatFsm orig lower upper

def Item.fsm : Item → Option Fsm
  | .leaf l => l.convertToFsm
  | .group a => a.fsm

end

end Actions

/-! ## What the automata accept -/

/-- The characters, or the strings, of a range. -/
def CharacterRange.words (range : CharacterRange) : Language Input :=
  let listed := Fsm.spelt fun w => ∃ s ∈ range.strings, s ≠ [] ∧ w = s.flatMap Utf8.toLocal
  if range.negated then Utf8.oneRune ⊓ listedᶜ else listed

def Leaf.words : Leaf → Language Input
  | .letters range => range.words
  | .dot => Utf8.oneRune
  | .beginMark => Fsm.oneOf [Pire.beginMark]
  | .endMark => Fsm.oneOf [Pire.endMark]

def Item.bare : Item → Bool
  | .group (.single (.single (.plain .empty))) => true
  | _ => false

/-- What is converted to the automaton without steps. -/
def Iteration.bare : Iteration → Bool
  | .once t => t.bare
  | .counted _ lower upper => lower = 0 && upper = 0

/-- What a count makes of the words of a term, `some` being those that are read
by taking a step. -/
def repeated (all some : Language Input) (lower upper : Int32) : Language Input :=
  if lower = 0 ∧ upper = 1 then all + 1
  else if lower = 0 ∧ upper = inf then all∗
  else if lower = 1 ∧ upper = inf then all * all∗
  else
    let cur := some ^ lower.toInt.toNat
    if upper = inf then cur * all∗
    else if upper ≠ lower then cur * (all + 1) ^ (upper.toInt - lower.toInt).toNat
    else cur

mutual

def Alternative.accepted : Alternative → Language Input
  | .single c => c.accepted
  | .either a c => a.accepted + c.accepted

def Conjunction.accepted : Conjunction → Language Input
  | .single n => n.accepted
  | .both c n => c.accepted ⊓ n.accepted

def Negation.accepted : Negation → Language Input
  | .plain c => c.accepted
  | .inverted c => c.acceptedᶜ

/-- `operator +=` takes the way through its right side by a step, and the automaton
without steps has none. -/
def Concatenation.accepted : Concatenation → Language Input
  | .empty => 1
  | .append c i => if i.bare then 0 else c.accepted * i.accepted

def Iteration.accepted : Iteration → Language Input
  | .once t => t.accepted
  | .counted t lower upper => repeated t.accepted (if t.bare then 0 else t.accepted) lower upper

def Item.accepted : Item → Language Input
  | .leaf l => l.words
  | .group a => a.accepted

end

/-! ## What an automaton means -/

open Fsm

/-- An automaton of a language, as the actions pass them on. -/
structure Means (m : Fsm) (L : Language Input) : Prop where
  valid : m.Valid
  determined : m.determined = false
  lang : m.lang = L

/-- Only the automaton without steps starts in a final state. -/
def Starts (m : Fsm) (bare : Bool) : Prop :=
  (bare = true ∧ m = new) ∨ (bare = false ∧ m.initial ∉ m.final)

theorem departing_new : new.departing = 0 := by
  refine Set.eq_empty_of_forall_notMem fun x hx => ?_
  obtain ⟨o, t, y, -, ht, -⟩ := hx
  rw [no_step_new] at ht
  exact Set.notMem_empty t ht

theorem means_new : Means new 1 := ⟨valid_new, rfl, lang_new⟩

theorem Means.marked {m : Fsm} {L : Language Input} (h : Means m L) : m.Marked :=
  marked_of_determined_eq_false h.determined

theorem Means.departing {m : Fsm} {L : Language Input} (h : Means m L) {bare : Bool}
    (hs : Starts m bare) : m.departing = if bare then 0 else L := by
  rcases hs with ⟨rfl, rfl⟩ | ⟨rfl, hf⟩
  · exact departing_new
  · rw [← lang_eq_departing hf, h.lang]
    rfl

/-- Concatenation reads the right side by taking a step. -/
theorem Means.concatenate {m rhs : Fsm} {L K : Language Input} (h : Means m L)
    (hr : Means rhs K) : Means (m.concatenate rhs) (L * rhs.departing) :=
  ⟨h.valid.concatenate hr.valid, rfl, by rw [lang_concatenate h.valid hr.valid, h.lang]⟩

theorem Means.concatenate_of_not_final {m rhs : Fsm} {L K : Language Input} (h : Means m L)
    (hr : Means rhs K) (hf : rhs.initial ∉ rhs.final) : Means (m.concatenate rhs) (L * K) := by
  have hc := h.concatenate hr
  rwa [← lang_eq_departing hf, hr.lang] at hc

theorem Means.alternate {m rhs : Fsm} {L K : Language Input} (h : Means m L) (hr : Means rhs K) :
    Means (m.alternate rhs) (L + K) :=
  ⟨h.valid.alternate hr.valid, rfl, by rw [lang_alternate h.valid hr.valid, h.lang, hr.lang]⟩

theorem Means.iterate {m : Fsm} {L : Language Input} (h : Means m L) : Means m.iterate L∗ :=
  ⟨h.valid.iterate, rfl, by rw [lang_iterate h.valid, h.lang]⟩

theorem Means.times {m : Fsm} {L : Language Input} (h : Means m L) (n : Nat) :
    Means (m.times n) (m.departing ^ n) := by
  refine ⟨h.valid.times n, ?_, lang_times h.valid n⟩
  cases n <;> rfl

theorem Means.complement [StdPartition Nat] {m d : Fsm} {L : Language Input} (h : Means m L)
    (hd : m.complement = some d) : Means d Lᶜ :=
  ⟨Valid.complement h.marked hd, determined_complement hd,
    by rw [lang_complement_eq h.valid h.marked hd, h.lang]⟩

theorem Means.intersect [StdPartition Nat] {m rhs d : Fsm} {L K : Language Input}
    (h : Means m L) (hr : Means rhs K) (hd : m.intersect rhs = some d) :
    Means d (L ⊓ K) ∧ d.initial ∉ d.final := by
  obtain ⟨a, b, -, -, hc⟩ := intersect_eq_some hd
  refine ⟨⟨Valid.intersect hd, determined_complement hc, ?_⟩, ?_⟩
  · rw [lang_intersect_eq h.valid h.marked hr.valid hr.marked hd, h.lang, hr.lang]
  · exact not_final_complement (marked_alternate a b) hc

/-! ## Counts -/

/-- The bounds are in order. -/
def Ordered (lower upper : Int32) : Prop :=
  0 ≤ lower.toInt ∧ (upper = inf ∨ lower.toInt ≤ upper.toInt)

instance (lower upper : Int32) : Decidable (Ordered lower upper) :=
  inferInstanceAs (Decidable (_ ∧ _))

theorem toSize_of_nonneg {n : Int} (h : 0 ≤ n) (h' : n < 2 ^ 64) : toSize n = n.toNat := by
  unfold toSize
  rw [Int.emod_eq_of_lt h h']

/-- There are copies exactly when the number has not wrapped. -/
theorem multiply_toSize {m : Fsm} {n : Int} (h : -2 ^ 63 ≤ n) (h' : n < 2 ^ 63) :
    m.multiply (toSize n) = if 0 ≤ n then some (m.times n.toNat) else none := by
  unfold multiply
  by_cases hn : 0 ≤ n
  · rw [toSize_of_nonneg hn (by omega), if_pos (by omega), if_pos hn]
  · rw [if_neg hn, if_neg]
    unfold toSize
    omega

theorem multiply_lower (m : Fsm) (lower : Int32) : m.multiply (toSize lower.toInt) =
    if 0 ≤ lower.toInt then some (m.times lower.toInt.toNat) else none := by
  have h1 := lower.le_toInt
  have h2 := lower.toInt_lt
  exact multiply_toSize (by omega) (by omega)

theorem multiply_difference (m : Fsm) (lower upper : Int32) :
    m.multiply (toSize (upper.toInt - lower.toInt)) =
      if lower.toInt ≤ upper.toInt then some (m.times (upper.toInt - lower.toInt).toNat)
      else none := by
  have h1 := lower.le_toInt
  have h2 := lower.toInt_lt
  have h3 := upper.le_toInt
  have h4 := upper.toInt_lt
  rw [multiply_toSize (by omega) (by omega)]
  simp only [Int.sub_nonneg]

/-- The cases of the action that comes to an end. -/
theorem repeatFsm_eq {orig : Fsm} {lower upper : Int32} (h : Ordered lower upper) :
    repeatFsm orig lower upper = some (
      if lower = 0 ∧ upper = 1 then orig.alternate new
      else if lower = 0 ∧ upper = inf then orig.iterate
      else if lower = 1 ∧ upper = inf then orig.concatenate orig.iterate
      else if upper = inf then (orig.times lower.toInt.toNat).concatenate orig.iterate
      else if upper ≠ lower then (orig.times lower.toInt.toNat).concatenate
        ((orig.alternate new).times (upper.toInt - lower.toInt).toNat)
      else orig.times lower.toInt.toNat) := by
  obtain ⟨hl, hu⟩ := h
  unfold repeatFsm
  rw [multiply_lower, if_pos hl, multiply_difference]
  split_ifs with h1 h2 h3 h4 h5 h6
  · rfl
  · rfl
  · rfl
  · rfl
  · rfl
  · exact absurd (hu.resolve_left h4) h6
  · rfl

/-- Bounds that are not in order take more copies than there is memory for. -/
theorem ordered_of_repeatFsm {orig m : Fsm} {lower upper : Int32}
    (h : repeatFsm orig lower upper = some m) : Ordered lower upper := by
  unfold repeatFsm at h
  rw [multiply_lower, multiply_difference] at h
  split at h
  · rename_i h1
    rw [h1.1, h1.2]
    decide
  split at h
  · rename_i h2
    rw [h2.1, h2.2]
    decide
  split at h
  · rename_i h3
    rw [h3.1, h3.2]
    decide
  by_cases hl : 0 ≤ lower.toInt
  · refine ⟨hl, ?_⟩
    by_contra hu
    rw [not_or] at hu
    have hne : upper ≠ lower := fun he => hu.2 (he ▸ Int.le_refl _)
    rw [if_pos hl, Option.bind_some, if_neg hu.1, if_pos hne, if_neg hu.2] at h
    cases h
  · rw [if_neg hl] at h
    cases h

theorem toNat_toInt_eq_zero {n : Int32} (h : 0 ≤ n.toInt) : n.toInt.toNat = 0 ↔ n = 0 := by
  rw [← Int32.toInt_inj, Int32.toInt_zero]
  omega

theorem means_repeatFsm {orig m : Fsm} {L : Language Input} (h : Means orig L)
    {lower upper : Int32} (hm : repeatFsm orig lower upper = some m) :
    Means m (repeated L orig.departing lower upper) := by
  have hordered := ordered_of_repeatFsm hm
  rw [repeatFsm_eq hordered] at hm
  obtain rfl := Option.some.inj hm
  have hany := h.alternate means_new
  have hcur := h.times lower.toInt.toNat
  unfold repeated
  split_ifs with h1 h2 h3 h4 h5
  · exact hany
  · exact h.iterate
  · exact h.concatenate_of_not_final h.iterate (not_final_iterate orig)
  · exact hcur.concatenate_of_not_final h.iterate (not_final_iterate orig)
  · have hne : (upper.toInt - lower.toInt).toNat ≠ 0 := by
      have hle := hordered.2.resolve_left h4
      have hdiff : upper.toInt ≠ lower.toInt := fun he => h5 (Int32.toInt_inj.mp he)
      omega
    have hrest := hany.times (upper.toInt - lower.toInt).toNat
    rw [← lang_eq_departing (not_final_alternate h.valid valid_new), hany.lang] at hrest
    exact hcur.concatenate_of_not_final hrest (not_final_times hany.valid hne)
  · exact hcur

theorem starts_repeatFsm {orig m : Fsm} {L : Language Input} (h : Means orig L)
    {lower upper : Int32} (hm : repeatFsm orig lower upper = some m) :
    Starts m (lower = 0 && upper = 0) := by
  have hordered := ordered_of_repeatFsm hm
  rw [repeatFsm_eq hordered] at hm
  obtain rfl := Option.some.inj hm
  have hcur := (h.times lower.toInt.toNat).valid
  have hbare : ∀ {k : Fsm}, ¬ (lower = 0 ∧ upper = 0) → k.initial ∉ k.final →
      Starts k (lower = 0 && upper = 0) := by
    intro k hk hf
    refine Or.inr ⟨?_, hf⟩
    rw [← Bool.decide_and, decide_eq_false hk]
  split_ifs with h1 h2 h3 h4 h5
  · refine hbare ?_ (not_final_alternate h.valid valid_new)
    rintro ⟨-, rfl⟩
    exact absurd h1.2 (by decide)
  · refine hbare ?_ (not_final_iterate orig)
    rintro ⟨-, rfl⟩
    exact absurd h2.2 (by decide)
  · refine hbare ?_ (not_final_concatenate h.valid)
    rintro ⟨-, rfl⟩
    exact absurd h3.2 (by decide)
  · refine hbare ?_ (not_final_concatenate hcur)
    rintro ⟨-, rfl⟩
    exact absurd h4 (by decide)
  · refine hbare ?_ (not_final_concatenate hcur)
    rintro ⟨rfl, rfl⟩
    exact h5 rfl
  · have hsame : upper = lower := not_not.mp h5
    subst hsame
    by_cases hz : upper = 0
    · subst hz
      exact Or.inl ⟨rfl, rfl⟩
    · exact hbare (fun hz' => hz hz'.1)
        (not_final_times h.valid fun hz' => hz ((toNat_toInt_eq_zero hordered.1).mp hz'))

/-! ## Ranges, dots and marks -/

theorem mem_spelt {P : List UInt8 → Prop} {w : List UInt8} (h : P w) : w.map byte ∈ spelt P :=
  ⟨w, h, rfl⟩

theorem spell_eq (s : List Nat) : spell s = s.flatMap Utf8.toLocal := by
  unfold spell
  rw [if_neg]
  intro hany
  obtain ⟨c, -, hc⟩ := List.any_eq_true.mp hany
  exact Utf8.toLocal_ne_nil c (of_decide_eq_true hc)

theorem spell_eq_nil {s : List Nat} : spell s = [] ↔ s = [] := by
  rw [spell_eq]
  constructor
  · intro h
    cases s with
    | nil => rfl
    | cons c s => exact absurd h (List.append_ne_nil_of_left_ne_nil (Utf8.toLocal_ne_nil c) _)
  · rintro rfl
    rfl

/-- The strings that are not empty. -/
def CharacterRange.listed (range : CharacterRange) : Language Input :=
  spelt fun w => ∃ s ∈ range.strings, s ≠ [] ∧ w = s.flatMap Utf8.toLocal

theorem mem_spelled {range : CharacterRange} {w : List UInt8} :
    w ∈ (range.strings.sort.map spell).filter (· ≠ []) ↔
      ∃ s ∈ range.strings, s ≠ [] ∧ w = s.flatMap Utf8.toLocal := by
  rw [List.mem_filter, List.mem_map, decide_eq_true_eq]
  constructor
  · rintro ⟨⟨s, hs, rfl⟩, hne⟩
    exact ⟨s, (Finset.mem_sort _).mp hs, fun hnil => hne (spell_eq_nil.mpr hnil), spell_eq s⟩
  · rintro ⟨s, hs, hne, rfl⟩
    exact ⟨⟨s, (Finset.mem_sort _).mpr hs, spell_eq s⟩,
      fun hnil => hne (spell_eq_nil.mp ((spell_eq s).trans hnil))⟩

/-- The strings of a range behind an automaton that has no classes of letters. -/
theorem means_appendRange {a j : Fsm} {L : Language Input} (h : Means a L)
    (ha : a.letters = Partition.empty) {range : CharacterRange}
    (hj : appendRange a range = some j) :
    Means j (L * range.listed) ∧ j.letters = Partition.empty ∧ j.initial ∉ j.final := by
  unfold appendRange at hj
  simp only at hj
  split at hj
  · rename_i hnil
    obtain rfl := Option.some.inj hj
    have hnone : range.listed = 0 := by
      refine Set.eq_empty_of_forall_notMem ?_
      rintro x ⟨w, hw, -⟩
      have hmem := mem_spelled.mpr hw
      rw [hnil] at hmem
      exact List.not_mem_nil hmem
    refine ⟨⟨valid_makeFalse, rfl, ?_⟩, rfl, Finset.notMem_empty 0⟩
    rw [hnone, mul_zero]
    exact lang_makeFalse
  · rename_i hne
    refine ⟨⟨h.valid.appendStrings ha hne hj, (appendStrings_flags hne hj).2, ?_⟩,
      appendStrings_letters h.valid ha hj, not_final_appendStrings h.valid ha hj⟩
    rw [lang_appendStrings h.valid ha hj, h.lang]
    congr 2
    funext w
    exact propext mem_spelled

theorem means_appendDot {a : Fsm} {L : Language Input} (h : Means a L)
    (ha : a.letters = Partition.empty) : Means (Utf8.appendDot a) (L * Utf8.oneRune) ∧
      (Utf8.appendDot a).letters = Partition.empty ∧
      (Utf8.appendDot a).initial ∉ (Utf8.appendDot a).final :=
  ⟨⟨Utf8.valid_appendDot h.valid ha, Utf8.determined_endDot _,
    by rw [Utf8.lang_appendDot h.valid ha, h.lang]⟩,
    Utf8.appendDot_letters ha, Utf8.not_final_appendDot h.valid ha⟩

theorem means_append_new {c : Letter} (hc : c ≠ epsilon) :
    Means (new.append c) (oneOf [c]) ∧ (new.append c).initial ∉ (new.append c).final := by
  refine ⟨⟨valid_new.appendOneOf rfl (List.cons_ne_nil c []), rfl, ?_⟩, ?_⟩
  · have hl := lang_appendOneOf valid_new rfl
      (show epsilon ∉ [c] from fun he => hc (List.mem_singleton.mp he).symm)
    rw [lang_new, one_mul] at hl
    exact hl
  · intro hf
    exact Nat.zero_ne_one (Finset.mem_singleton.mp hf)

theorem Leaf.means [StdPartition Nat] {l : Leaf} {m : Fsm} (h : l.convertToFsm = some m) :
    Means m l.words ∧ m.initial ∉ m.final := by
  cases l with
  | dot =>
    obtain rfl := Option.some.inj h
    obtain ⟨hm, -, hf⟩ := means_appendDot means_new rfl
    rw [one_mul] at hm
    exact ⟨hm, hf⟩
  | beginMark =>
    obtain rfl := Option.some.inj h
    exact means_append_new (by decide)
  | endMark =>
    obtain rfl := Option.some.inj h
    exact means_append_new (by decide)
  | letters range =>
    obtain ⟨a, ha, h⟩ := Option.bind_eq_some_iff.mp h
    obtain ⟨hma, -, hfa⟩ := means_appendRange means_new rfl ha
    rw [one_mul] at hma
    cases hneg : range.negated with
    | false =>
      rw [hneg] at h
      obtain rfl := Option.some.inj h
      refine ⟨?_, hfa⟩
      show Means a (if range.negated then _ else _)
      rw [hneg]
      exact hma
    | true =>
      rw [if_pos hneg] at h
      obtain ⟨x, hx, h⟩ := Option.bind_eq_some_iff.mp h
      obtain ⟨b, hb, h⟩ := Option.bind_eq_some_iff.mp h
      obtain rfl := Option.some.inj h
      obtain ⟨hdot, -, -⟩ := means_appendDot means_new rfl
      rw [one_mul] at hdot
      have hmb := (hma.alternate (hdot.complement hx)).complement hb
      have hfb := not_final_complement (marked_alternate a x) hb
      refine ⟨⟨hmb.valid.removeDeadEnds, hmb.determined, ?_⟩, hfb⟩
      rw [lang_removeDeadEnds_eq hmb.valid, hmb.lang]
      show _ = if range.negated then _ else _
      rw [hneg, if_pos rfl]
      show (range.listed ⊔ Utf8.oneRuneᶜ)ᶜ = Utf8.oneRune ⊓ range.listedᶜ
      rw [compl_sup, compl_compl, inf_comm]

/-! ## Trees as a whole -/

/-- What is put behind a concatenation by an automaton of its own. -/
theorem means_concatenate {a rhs : Fsm} {L K : Language Input} {bare : Bool} (h : Means a L)
    (hr : Means rhs K) (hs : Starts rhs bare) :
    Means (a.concatenate rhs) (if bare then 0 else L * K) := by
  have hc := h.concatenate hr
  rw [hr.departing hs] at hc
  cases bare with
  | true => rwa [if_pos rfl, mul_zero] at hc
  | false => exact hc

section Trees

variable [StdPartition Nat]

mutual

theorem Alternative.spec (a : Alternative) {m : Fsm} (h : a.fsm = some m) :
    Means m a.accepted ∧
      ((a = .single (.single (.plain .empty)) ∧ m = new) ∨ m.initial ∉ m.final) := by
  match a with
  | .single c =>
    obtain ⟨hm, ⟨rfl, hn⟩ | hf⟩ := Conjunction.spec c h
    · exact ⟨hm, Or.inl ⟨rfl, hn⟩⟩
    · exact ⟨hm, Or.inr hf⟩
  | .either a c =>
    obtain ⟨k, hk, h⟩ := Option.bind_eq_some_iff.mp h
    obtain ⟨l, hl, h⟩ := Option.bind_eq_some_iff.mp h
    obtain rfl := Option.some.inj h
    have ha := (Alternative.spec a hk).1
    have hc := (Conjunction.spec c hl).1
    exact ⟨ha.alternate hc, Or.inr (not_final_alternate ha.valid hc.valid)⟩

theorem Conjunction.spec (c : Conjunction) {m : Fsm} (h : c.fsm = some m) :
    Means m c.accepted ∧ ((c = .single (.plain .empty) ∧ m = new) ∨ m.initial ∉ m.final) := by
  match c with
  | .single n =>
    obtain ⟨hm, ⟨rfl, hn⟩ | hf⟩ := Negation.spec n h
    · exact ⟨hm, Or.inl ⟨rfl, hn⟩⟩
    · exact ⟨hm, Or.inr hf⟩
  | .both c n =>
    obtain ⟨k, hk, h⟩ := Option.bind_eq_some_iff.mp h
    obtain ⟨l, hl, h⟩ := Option.bind_eq_some_iff.mp h
    obtain ⟨hm, hf⟩ := (Conjunction.spec c hk).1.intersect (Negation.spec n hl).1 h
    exact ⟨hm, Or.inr hf⟩

theorem Negation.spec (n : Negation) {m : Fsm} (h : n.fsm = some m) :
    Means m n.accepted ∧ ((n = .plain .empty ∧ m = new) ∨ m.initial ∉ m.final) := by
  match n with
  | .plain c =>
    obtain ⟨hm, -, ⟨rfl, hn⟩ | hf⟩ := Concatenation.spec c h
    · exact ⟨hm, Or.inl ⟨rfl, hn⟩⟩
    · exact ⟨hm, Or.inr hf⟩
  | .inverted c =>
    obtain ⟨k, hk, h⟩ := Option.bind_eq_some_iff.mp h
    have hc := (Concatenation.spec c hk).1
    exact ⟨hc.complement h, Or.inr (not_final_complement hc.marked h)⟩

theorem Concatenation.spec (c : Concatenation) {m : Fsm} (h : c.fsm = some m) :
    Means m c.accepted ∧ m.letters = Partition.empty ∧
      ((c = .empty ∧ m = new) ∨ m.initial ∉ m.final) := by
  match c with
  | .empty =>
    obtain rfl := Option.some.inj h
    exact ⟨means_new, rfl, Or.inl ⟨rfl, rfl⟩⟩
  | .append c i =>
    obtain ⟨a, ha, h⟩ := Option.bind_eq_some_iff.mp h
    obtain ⟨hm, hletters, -⟩ := Concatenation.spec c ha
    unfold appendIteration at h
    split at h
    · obtain ⟨hj, hl, hf⟩ := means_appendRange hm hletters h
      exact ⟨hj, hl, Or.inr hf⟩
    · obtain rfl := Option.some.inj h
      obtain ⟨hj, hl, hf⟩ := means_appendDot hm hletters
      exact ⟨hj, hl, Or.inr hf⟩
    · obtain ⟨rhs, hrhs, rfl⟩ := Option.map_eq_some_iff.mp h
      obtain ⟨hr, hs⟩ := Iteration.spec i hrhs
      exact ⟨means_concatenate hm hr hs, rfl, Or.inr (not_final_concatenate hm.valid)⟩

theorem Iteration.spec (i : Iteration) {m : Fsm} (h : i.fsm = some m) :
    Means m i.accepted ∧ Starts m i.bare := by
  match i with
  | .once t => exact Item.spec t h
  | .counted t lower upper =>
    obtain ⟨orig, horig, h⟩ := Option.bind_eq_some_iff.mp h
    obtain ⟨ht, hs⟩ := Item.spec t horig
    have hm := means_repeatFsm ht h
    rw [ht.departing hs] at hm
    exact ⟨hm, starts_repeatFsm ht h⟩

theorem Item.spec (t : Item) {m : Fsm} (h : t.fsm = some m) :
    Means m t.accepted ∧ Starts m t.bare := by
  match t with
  | .leaf l =>
    obtain ⟨hm, hf⟩ := Leaf.means h
    exact ⟨hm, Or.inr ⟨rfl, hf⟩⟩
  | .group a =>
    obtain ⟨hm, ⟨rfl, hn⟩ | hf⟩ := Alternative.spec a h
    · exact ⟨hm, Or.inl ⟨rfl, hn⟩⟩
    · refine ⟨hm, ?_⟩
      by_cases ha : a = .single (.single (.plain .empty))
      · subst ha
        have hn : some new = some m := h
        exact Or.inl ⟨rfl, (Option.some.inj hn).symm⟩
      · refine Or.inr ⟨?_, hf⟩
        unfold Item.bare
        split
        · rename_i heq
          exact absurd (Item.group.inj heq) ha
        · rfl

end

end Trees

/-! ## Trees that are always converted -/

def Leaf.Positive : Leaf → Prop
  | .letters range => range.negated = false
  | _ => True

mutual

/-- Nothing in it is negated or intersected, and counts have their bounds in order. -/
def Alternative.Positive : Alternative → Prop
  | .single c => c.Positive
  | .either a c => a.Positive ∧ c.Positive

def Conjunction.Positive : Conjunction → Prop
  | .single n => n.Positive
  | .both _ _ => False

def Negation.Positive : Negation → Prop
  | .plain c => c.Positive
  | .inverted _ => False

def Concatenation.Positive : Concatenation → Prop
  | .empty => True
  | .append c i => c.Positive ∧ i.Positive

def Iteration.Positive : Iteration → Prop
  | .once t => t.Positive
  | .counted t lower upper => t.Positive ∧ Ordered lower upper

def Item.Positive : Item → Prop
  | .leaf l => l.Positive
  | .group a => a.Positive

end

theorem exists_appendRange (a : Fsm) (range : CharacterRange) :
    ∃ m, appendRange a range = some m := by
  unfold appendRange
  dsimp only
  split
  · exact ⟨_, rfl⟩
  · unfold Fsm.appendStrings
    refine ⟨_, if_neg fun hany => ?_⟩
    obtain ⟨w, hw, hnil⟩ := List.any_eq_true.mp hany
    exact of_decide_eq_true (List.mem_filter.mp hw).2 (List.isEmpty_iff.mp hnil)

theorem map_byte_injective : Function.Injective (List.map byte) :=
  List.map_injective_iff.mpr fun _ _ h => byte_inj (congrArg Subtype.val h)

section Converted

variable [StdPartition Nat]

theorem Leaf.exists_fsm {l : Leaf} (h : l.Positive) : ∃ m, l.convertToFsm = some m := by
  cases l with
  | dot => exact ⟨_, rfl⟩
  | beginMark => exact ⟨_, rfl⟩
  | endMark => exact ⟨_, rfl⟩
  | letters range =>
    obtain ⟨a, ha⟩ := exists_appendRange new range
    have hneg : range.negated = false := h
    refine ⟨a, ?_⟩
    show (appendRange new range).bind _ = some a
    rw [ha]
    exact if_neg (hneg ▸ Bool.false_ne_true)

/-- A range reads its strings.  A negated one reads what `FromLocal` reads as one
character, but for them. -/
theorem mem_lang_range_iff {range : CharacterRange} {m : Fsm}
    (h : (Leaf.letters range).convertToFsm = some m) (x : List Input) :
    x ∈ m.lang ↔
      if range.negated then ∃ w r, Utf8.fromLocal w = some [r] ∧ x = w.map byte ∧
        ∀ s ∈ range.strings, s ≠ [] → w ≠ s.flatMap Utf8.toLocal
      else ∃ s ∈ range.strings, s ≠ [] ∧ x = (s.flatMap Utf8.toLocal).map byte := by
  have hlisted : x ∈ range.listed ↔
      ∃ s ∈ range.strings, s ≠ [] ∧ x = (s.flatMap Utf8.toLocal).map byte := by
    constructor
    · rintro ⟨w, ⟨s, hs, hne, rfl⟩, rfl⟩
      exact ⟨s, hs, hne, rfl⟩
    · rintro ⟨s, hs, hne, rfl⟩
      exact mem_spelt ⟨s, hs, hne, rfl⟩
  have hwords : (Leaf.letters range).words =
      if range.negated then Utf8.oneRune ⊓ range.listedᶜ else range.listed := rfl
  rw [(Leaf.means h).1.lang, hwords]
  split
  · constructor
    · rintro ⟨⟨w, ⟨r, hr⟩, rfl⟩, hnot⟩
      refine ⟨w, r, Utf8.fromLocal_eq_singleton.mpr hr, rfl, fun s hs hne hw => hnot ?_⟩
      exact hlisted.mpr ⟨s, hs, hne, congrArg _ hw⟩
    · rintro ⟨w, r, hr, rfl, hnot⟩
      refine ⟨⟨w, ⟨r, Utf8.fromLocal_eq_singleton.mp hr⟩, rfl⟩, fun hin => ?_⟩
      obtain ⟨s, hs, hne, hw⟩ := hlisted.mp hin
      exact hnot s hs hne (map_byte_injective hw)
  · exact hlisted

end Converted

theorem mem_lang_range_iff_ja : ∃ m, (Leaf.letters ⟨{[0x44F]}, false⟩).convertToFsm = some m ∧
    ([byte 0xD1] ∈ m.lang ↔ if false then
        ∃ w r, Utf8.fromLocal w = some [r] ∧ [byte 0xD1] = w.map byte ∧
          ∀ s ∈ ({[0x44F]} : Finset (List Nat)), s ≠ [] → w ≠ s.flatMap Utf8.toLocal
      else ∃ s ∈ ({[0x44F]} : Finset (List Nat)),
        s ≠ [] ∧ [byte 0xD1] = (s.flatMap Utf8.toLocal).map byte) := by
  obtain ⟨m, hm⟩ := Leaf.exists_fsm (l := .letters ⟨{[0x44F]}, false⟩) rfl
  exact ⟨m, hm, mem_lang_range_iff hm _⟩

section Exists

variable [StdPartition Nat]

mutual

theorem Alternative.exists_fsm (a : Alternative) (h : a.Positive) : ∃ m, a.fsm = some m := by
  match a with
  | .single c => exact Conjunction.exists_fsm c h
  | .either a c =>
    obtain ⟨k, hk⟩ := Alternative.exists_fsm a h.1
    obtain ⟨l, hl⟩ := Conjunction.exists_fsm c h.2
    exact ⟨_, Option.bind_eq_some_iff.mpr ⟨k, hk, Option.bind_eq_some_iff.mpr ⟨l, hl, rfl⟩⟩⟩

theorem Conjunction.exists_fsm (c : Conjunction) (h : c.Positive) : ∃ m, c.fsm = some m := by
  match c with
  | .single n => exact Negation.exists_fsm n h
  | .both _ _ => exact h.elim

theorem Negation.exists_fsm (n : Negation) (h : n.Positive) : ∃ m, n.fsm = some m := by
  match n with
  | .plain c => exact Concatenation.exists_fsm c h
  | .inverted _ => exact h.elim

theorem Concatenation.exists_fsm (c : Concatenation) (h : c.Positive) : ∃ m, c.fsm = some m := by
  match c with
  | .empty => exact ⟨_, rfl⟩
  | .append c i =>
    obtain ⟨a, ha⟩ := Concatenation.exists_fsm c h.1
    obtain ⟨rhs, hrhs⟩ := Iteration.exists_fsm i h.2
    suffices hm : ∃ m, appendIteration a i i.fsm = some m by
      obtain ⟨m, hm⟩ := hm
      exact ⟨m, Option.bind_eq_some_iff.mpr ⟨a, ha, hm⟩⟩
    unfold appendIteration
    split
    · exact exists_appendRange a _
    · exact ⟨_, rfl⟩
    · exact ⟨_, by rw [hrhs]; rfl⟩

theorem Iteration.exists_fsm (i : Iteration) (h : i.Positive) : ∃ m, i.fsm = some m := by
  match i with
  | .once t => exact Item.exists_fsm t h
  | .counted t lower upper =>
    obtain ⟨orig, horig⟩ := Item.exists_fsm t h.1
    exact ⟨_, Option.bind_eq_some_iff.mpr ⟨orig, horig, repeatFsm_eq h.2⟩⟩

theorem Item.exists_fsm (t : Item) (h : t.Positive) : ∃ m, t.fsm = some m := by
  match t with
  | .leaf l => exact Leaf.exists_fsm h
  | .group a => exact Alternative.exists_fsm a h

end

end Exists

end Pire
end MediaServer
