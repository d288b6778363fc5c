/-
`RemoveEpsilons`: the table loses its ε-transitions and gets its letter classes.

The ε-transitions are closed under composition first (`ShortCutEpsilon` over all
states), then every state takes over the transitions and the finality of those
that it reaches by ε (`MergeEpsilonConnection`), and the ε-entries are erased.
`lang_removeEpsilons` says that the language stays.
-/
import MediaServer.Automata.Determinization
import MediaServer.Automata.Warshall
import MediaServer.Pire.Iteration
import Mathlib.Order.Interval.Finset.Nat

namespace MediaServer
namespace Pire
namespace Fsm

open Automata

/-! ## Letter classes -/

/-- Every letter but ε, in order.  Proofs never unfold the list. -/
@[irreducible] def allLetters : List Letter := (List.finRange 264).filter fun c => c ≠ epsilon

theorem mem_allLetters {c : Letter} : c ∈ allLetters ↔ c ≠ epsilon := by
  unfold allLetters
  simp

theorem nodup_allLetters : allLetters.Nodup := by
  unfold allLetters
  exact (List.nodup_finRange 264).filter _

/-- `LettersEquality`: the letters have the same entries in every row. -/
def lettersEquality (transitions : List TransitionRow) (a b : Letter) : Bool :=
  transitions.all fun row => row a = row b

theorem lettersEquality_iff {transitions : List TransitionRow} {a b : Letter} :
    lettersEquality transitions a b = true ↔ ∀ row ∈ transitions, row a = row b := by
  simp [lettersEquality]

/-- `Sparse` -/
def sparse (m : Fsm) : Fsm :=
  { m with
    letters := allLetters.foldl (Partition.append (lettersEquality m.transitions)) Partition.empty
    sparsed := true }

/-- `Unsparse`: every letter of a class gets the entry of its key. -/
def unsparse (m : Fsm) : Fsm :=
  { m with
    transitions := m.transitions.map fun row c => match m.letters.inv c with
      | some k => some ((row k).getD ∅)
      | none => row c
    sparsed := false }

theorem sound_sparse (m : Fsm) : Partition.Sound (lettersEquality m.transitions)
    (fun c => c ≠ epsilon) [] m.sparse.letters := by
  have hrefl : ∀ a, lettersEquality m.transitions a a = true :=
    fun a => lettersEquality_iff.mpr fun _ _ => rfl
  have hsymm : ∀ a b, lettersEquality m.transitions a b = true →
      lettersEquality m.transitions b a = true :=
    fun a b h => lettersEquality_iff.mpr fun row hr => (lettersEquality_iff.mp h row hr).symm
  have h := Partition.sound_ofItems hrefl hsymm nodup_allLetters
  have hD : (fun c => c ∈ allLetters) = fun c : Letter => c ≠ epsilon := by
    funext c
    exact propext mem_allLetters
  rw [hD] at h
  exact h

theorem sparse_inv_epsilon (m : Fsm) : m.sparse.letters.inv epsilon = none :=
  Partition.ofItems_inv_of_notMem _ fun h => mem_allLetters.mp h rfl

/-- Two letters have the same key exactly when no row tells them apart. -/
theorem sparse_klass_row (m : Fsm) (s : Nat) (c : Letter) :
    m.row s (m.sparse.klass c) = m.row s c := by
  by_cases hc : c = epsilon
  · subst hc
    unfold klass
    rw [sparse_inv_epsilon, Option.getD_none]
  · obtain ⟨k, hk, hck, hi⟩ := (sound_sparse m).exists_klass hc
    have heq := (sound_sparse m).same k hk c hck
    unfold klass
    rw [hi, Option.getD_some]
    unfold row
    cases hr : m.transitions[s]? with
    | none => rfl
    | some row => exact lettersEquality_iff.mp heq row (List.mem_of_getElem? hr)

/-- The letter that stands for its class, by itself. -/
def entry (m : Fsm) (s : Nat) (c : Letter) : StatesSet := (m.row s c).getD ∅

theorem targets_sparse (m : Fsm) (s : Nat) (c : Letter) : m.sparse.targets s c = m.entry s c := by
  unfold targets entry
  have hrow : ∀ d, m.sparse.row s d = m.row s d := fun _ => rfl
  rw [hrow, sparse_klass_row]

theorem row_unsparse (m : Fsm) {s : Nat} (hs : s < m.size) (c : Letter) :
    m.unsparse.row s c = match m.letters.inv c with
      | some k => some ((m.row s k).getD ∅)
      | none => m.row s c := by
  unfold row unsparse
  simp only [List.getElem?_map]
  rw [List.getElem?_eq_getElem hs]
  rfl

@[simp] theorem size_unsparse (m : Fsm) : m.unsparse.size = m.size := by
  simp only [size, unsparse, List.length_map]

/-- A full table has for each letter itself what the sparse one means. -/
theorem entry_unsparse (m : Fsm) (s : Nat) (c : Letter) :
    m.unsparse.entry s c = m.targets s c := by
  by_cases hs : s < m.size
  · unfold entry targets klass
    rw [row_unsparse m hs]
    cases hi : m.letters.inv c with
    | none => simp only [Option.getD_none]
    | some k => simp only [Option.getD_some]
  · have hle := Nat.le_of_not_lt hs
    unfold entry
    rw [targets_of_size_le hle, row_of_size_le (by rw [size_unsparse]; exact hle)]
    rfl

/-! ## Closing the ε-transitions -/

/-- The table under construction and the states that reach each one by ε. -/
abbrev Closing := Fsm × (Nat → Finset Nat)

/-- `ShortCutEpsilon`: what `thru` reaches by ε, `s` is connected to. -/
def shortCutEpsilon (s thru : Nat) (p : Closing) : Closing :=
  (p.1.destinations thru epsilon).sort.foldl (fun p t =>
    (p.1.connect s t epsilon, Function.update p.2 t (insert s (p.2 t)))) p

/-- The loop changes `inveps thru` nowhere: an insertion into it would be of a
state that it has.  So the set is taken once. -/
def shortCutThru (p : Closing) (thru : Nat) : Closing :=
  (p.2 thru).sort.foldl (fun p s => if s ≠ thru then shortCutEpsilon s thru p else p) p

def inverseEpsilons (m : Fsm) (t : Nat) : Finset Nat :=
  (Finset.range m.size).filter fun s => t ∈ m.destinations s epsilon

def closeEpsilons (m : Fsm) : Fsm :=
  ((List.range m.size).foldl shortCutThru (m, m.inverseEpsilons)).1

theorem destinations_eq_entry (m : Fsm) (s : Nat) :
    m.destinations s epsilon = m.entry s epsilon := by
  unfold destinations entry translate
  rw [if_pos (by simp)]

theorem mem_entry_connect (m : Fsm) {a b s t : Nat} {c d : Letter} (hs : s < m.size) :
    t ∈ (m.connect a b d).entry s c ↔ t ∈ m.entry s c ∨ (s = a ∧ c = d ∧ t = b) := by
  unfold entry connect
  rw [row_connectWhere _ _ _ _ hs]
  by_cases ha : s = a
  · simp only [ha, decide_true, if_true, mem_addTarget, true_and]
  · simp only [ha, decide_false, Bool.false_eq_true, if_false, false_and, or_false]

theorem entry_of_size_le {m : Fsm} {s : Nat} (h : m.size ≤ s) (c : Letter) : m.entry s c = ∅ := by
  unfold entry
  rw [row_of_size_le h]
  rfl

/-- The state of the construction: `R` are the ε-transitions, and nothing else
is changed. -/
structure Closed (m : Fsm) (R : Nat → Nat → Prop) (p : Closing) : Prop where
  size : p.1.size = m.size
  initial : p.1.initial = m.initial
  final : p.1.final = m.final
  letters : p.1.letters = m.letters
  other : ∀ s c, c ≠ epsilon → p.1.entry s c = m.entry s c
  silent : ∀ s t, t ∈ p.1.entry s epsilon ↔ R s t
  inverse : ∀ s t, s ∈ p.2 t ↔ R s t
  lt : ∀ s t, R s t → s < m.size ∧ t < m.size

section Closing

variable {m : Fsm} {R : Nat → Nat → Prop} {p : Closing}

theorem Closed.congr (h : Closed m R p) {S : Nat → Nat → Prop} (hRS : ∀ s t, R s t ↔ S s t) :
    Closed m S p := by
  have hS : R = S := funext fun s => funext fun t => propext (hRS s t)
  rwa [← hS]

/-- One ε-transition, put into the table and into the inverse map. -/
theorem Closed.connect (h : Closed m R p) {a b : Nat} (ha : a < m.size) (hb : b < m.size) :
    Closed m (fun s t => R s t ∨ (s = a ∧ t = b))
      (p.1.connect a b epsilon, Function.update p.2 b (insert a (p.2 b))) where
  size := (size_connectWhere _ _ _ _).trans h.size
  initial := h.initial
  final := h.final
  letters := h.letters
  other s c hc := by
    rw [← h.other s c hc]
    by_cases hs : s < p.1.size
    · ext t
      rw [mem_entry_connect _ hs]
      simp only [hc, false_and, and_false, or_false]
    · have hle := Nat.le_of_not_lt hs
      rw [entry_of_size_le hle,
        entry_of_size_le (by rw [Fsm.connect, size_connectWhere]; exact hle)]
  silent s t := by
    by_cases hs : s < p.1.size
    · rw [mem_entry_connect _ hs, h.silent]
      simp only [true_and]
    · have hle := Nat.le_of_not_lt hs
      rw [entry_of_size_le (by rw [Fsm.connect, size_connectWhere]; exact hle)]
      constructor
      · intro ht
        exact absurd ht (Finset.notMem_empty t)
      · rintro (ht | ⟨rfl, -⟩)
        · rw [h.size] at hs
          exact absurd (h.lt s t ht).1 hs
        · rw [h.size] at hs
          exact absurd ha hs
  inverse s t := by
    show s ∈ Function.update p.2 b (insert a (p.2 b)) t ↔ _
    by_cases ht : t = b
    · subst ht
      rw [Function.update_self, Finset.mem_insert, h.inverse]
      tauto
    · rw [Function.update_of_ne ht, h.inverse]
      tauto
  lt s t := by
    rintro (ht | ⟨rfl, rfl⟩)
    · exact h.lt s t ht
    · exact ⟨ha, hb⟩

theorem Closed.connectAll (targets : List Nat) (h : Closed m R p) {a : Nat} (ha : a < m.size)
    (ht : ∀ t ∈ targets, t < m.size) :
    Closed m (fun s t => R s t ∨ (s = a ∧ t ∈ targets))
      (targets.foldl (fun p t =>
        (p.1.connect a t epsilon, Function.update p.2 t (insert a (p.2 t)))) p) := by
  induction targets generalizing p R with
  | nil => exact h.congr fun s t => by simp
  | cons b targets ih =>
    have hb : b < m.size := ht b List.mem_cons_self
    have h' := ih (h.connect ha hb) fun t hmem => ht t (List.mem_cons_of_mem b hmem)
    refine h'.congr fun s t => ?_
    rw [List.mem_cons]
    tauto

theorem Closed.shortCutEpsilon (h : Closed m R p) {a thru : Nat} (ha : a < m.size) :
    Closed m (fun s t => R s t ∨ (s = a ∧ R thru t)) (Fsm.shortCutEpsilon a thru p) := by
  have hmem : ∀ t, t ∈ (p.1.destinations thru epsilon).sort ↔ R thru t := by
    intro t
    rw [Finset.mem_sort, destinations_eq_entry, h.silent]
  have h' := h.connectAll (p.1.destinations thru epsilon).sort ha
    fun t ht => (h.lt thru t ((hmem t).mp ht)).2
  exact h'.congr fun s t => by rw [hmem]

/-- The states of a list, but `thru` itself, get what `thru` reaches. -/
theorem Closed.shortCutFrom (thru : Nat) (sources : List Nat) (h : Closed m R p)
    (hs : ∀ s ∈ sources, s < m.size) :
    Closed m (fun s t => R s t ∨ (s ∈ sources ∧ s ≠ thru ∧ R thru t))
      (sources.foldl (fun p s => if s ≠ thru then Fsm.shortCutEpsilon s thru p else p) p) := by
  induction sources generalizing p R with
  | nil => exact h.congr fun s t => by simp
  | cons a sources ih =>
    have ha : a < m.size := hs a List.mem_cons_self
    have hs' : ∀ s ∈ sources, s < m.size := fun s hmem => hs s (List.mem_cons_of_mem a hmem)
    rw [List.foldl_cons]
    by_cases hat : a = thru
    · rw [if_neg (not_not.mpr hat)]
      refine (ih h hs').congr fun s t => ?_
      rw [List.mem_cons]
      have : s = a → ¬ s ≠ thru := fun hsa => not_not.mpr (hsa.trans hat)
      tauto
    · rw [if_pos hat]
      refine (ih (h.shortCutEpsilon ha) hs').congr fun s t => ?_
      rw [List.mem_cons]
      have hthru : thru ≠ a := Ne.symm hat
      have : s = a → s ≠ thru := fun hsa => hsa ▸ hat
      tauto

theorem Closed.shortCutThru (h : Closed m R p) (thru : Nat) :
    Closed m (shortcut R thru) (Fsm.shortCutThru p thru) := by
  have hmem : ∀ s, s ∈ (p.2 thru).sort ↔ R s thru := by
    intro s
    rw [Finset.mem_sort, h.inverse]
  have h' := h.shortCutFrom thru (p.2 thru).sort
    fun s hs => (h.lt s thru ((hmem s).mp hs)).1
  refine h'.congr fun s t => ?_
  rw [hmem]
  -- for `thru` itself the short cut says nothing new
  constructor
  · rintro (hr | ⟨hs, -, ht⟩)
    · exact Or.inl hr
    · exact Or.inr ⟨hs, ht⟩
  · rintro (hr | ⟨hs, ht⟩)
    · exact Or.inl hr
    · by_cases he : s = thru
      · exact Or.inl (he ▸ ht)
      · exact Or.inr ⟨hs, he, ht⟩

theorem Closed.warshall (h : Closed m R p) (n : Nat) :
    Closed m (Automata.warshall R n) ((List.range n).foldl Fsm.shortCutThru p) := by
  induction n with
  | zero => exact h
  | succ n ih =>
    rw [List.range_succ, List.foldl_append]
    exact ih.shortCutThru n

/-- The ε-transitions become their transitive closure. -/
theorem closed_closeEpsilons (hlt : ∀ s t, t ∈ m.entry s epsilon → t < m.size) :
    Closed m (Relation.TransGen fun s t => t ∈ m.entry s epsilon)
      ((List.range m.size).foldl Fsm.shortCutThru (m, m.inverseEpsilons)) := by
  have hsource : ∀ s t, t ∈ m.entry s epsilon → s < m.size := by
    intro s t ht
    by_contra hs
    rw [entry_of_size_le (Nat.le_of_not_lt hs)] at ht
    exact absurd ht (Finset.notMem_empty t)
  have hstart : Closed m (fun s t => t ∈ m.entry s epsilon) (m, m.inverseEpsilons) :=
    { size := rfl
      initial := rfl
      final := rfl
      letters := rfl
      other := fun _ _ _ => rfl
      silent := fun _ _ => Iff.rfl
      inverse := fun s t => by
        unfold inverseEpsilons
        rw [Finset.mem_filter, Finset.mem_range, destinations_eq_entry]
        exact and_iff_right_of_imp (hsource s t)
      lt := fun s t ht => ⟨hsource s t ht, hlt s t ht⟩ }
  exact (hstart.warshall m.size).congr fun s t => warshall_iff hlt s t

end Closing

/-! ## Merging -/

/-- The entries of `row'` besides those of `row`. -/
def mergeEntries (row row' : TransitionRow) : TransitionRow :=
  fun c => match row' c with
    | none => row c
    | some tos => some ((row c).getD ∅ ∪ tos)

/-- `MergeEpsilonConnection`: `s` gets the transitions of `t` and its finality. -/
def mergeEpsilonConnection (m : Fsm) (s t : Nat) : Fsm :=
  { m with
    transitions := m.transitions.mapIdx fun i row =>
      if i = s then mergeEntries row (m.row t) else row
    final := if t ∈ m.final then insert s m.final else m.final }

/-- The ε-transitions of `s` are closed, so merging adds none to them while they
are gone through. -/
def mergeState (m : Fsm) (s : Nat) : Fsm :=
  (m.destinations s epsilon).sort.foldl
    (fun m t => if t ≠ s then m.mergeEpsilonConnection s t else m) m

def mergeEpsilons (m : Fsm) : Fsm := (List.range m.size).foldl mergeState m

def dropEpsilons (m : Fsm) : Fsm :=
  { m with transitions := m.transitions.map fun row => Function.update row epsilon none }

def removeEpsilons (m : Fsm) : Fsm :=
  m.unsparse.closeEpsilons.mergeEpsilons.dropEpsilons.sparse.clearHints

theorem mem_mergeEntries {row row' : TransitionRow} {c : Letter} {t : Nat} :
    t ∈ (mergeEntries row row' c).getD ∅ ↔ t ∈ (row c).getD ∅ ∨ t ∈ (row' c).getD ∅ := by
  unfold mergeEntries
  cases row' c with
  | none => simp
  | some tos => simp

@[simp] theorem size_mergeEpsilonConnection (m : Fsm) (s t : Nat) :
    (m.mergeEpsilonConnection s t).size = m.size := by
  simp only [size, mergeEpsilonConnection, List.length_mapIdx]

theorem mem_entry_mergeEpsilonConnection (m : Fsm) {a b s t : Nat} {c : Letter}
    (hs : s < m.size) : t ∈ (m.mergeEpsilonConnection a b).entry s c ↔
      t ∈ m.entry s c ∨ (s = a ∧ t ∈ m.entry b c) := by
  have hrow : (m.mergeEpsilonConnection a b).row s =
      if s = a then mergeEntries (m.row s) (m.row b) else m.row s := by
    unfold mergeEpsilonConnection row
    simp only [List.getElem?_mapIdx]
    rw [List.getElem?_eq_getElem hs]
    rfl
  unfold entry
  rw [hrow]
  split
  · rename_i ha
    rw [mem_mergeEntries]
    simp only [ha, true_and]
  · rename_i ha
    simp only [ha, false_and, or_false]

theorem mem_final_mergeEpsilonConnection (m : Fsm) {a b s : Nat} :
    s ∈ (m.mergeEpsilonConnection a b).final ↔ s ∈ m.final ∨ (s = a ∧ b ∈ m.final) := by
  show s ∈ (if b ∈ m.final then insert a m.final else m.final) ↔ _
  split
  · rename_i hb
    rw [Finset.mem_insert]
    tauto
  · rename_i hb
    tauto

/-- The state of the merging: every state is between what it was and what its
ε-transitions `E` allow. -/
structure Merging (m : Fsm) (E : Nat → Nat → Prop) (j : Fsm) : Prop where
  size : j.size = m.size
  initial : j.initial = m.initial
  silent : ∀ s t, t ∈ j.entry s epsilon ↔ E s t
  above : ∀ s c t, t ∈ m.entry s c → t ∈ j.entry s c
  below : ∀ s c t, c ≠ epsilon → t ∈ j.entry s c → ∃ s', (s' = s ∨ E s s') ∧ t ∈ m.entry s' c
  final_above : ∀ s, s ∈ m.final → s ∈ j.final
  final_below : ∀ s, s ∈ j.final → ∃ s', (s' = s ∨ E s s') ∧ s' ∈ m.final

/-- `s` has everything that it reaches by ε. -/
def Merged (m : Fsm) (E : Nat → Nat → Prop) (j : Fsm) (s : Nat) : Prop :=
  ∀ s', E s s' → (∀ c t, t ∈ m.entry s' c → t ∈ j.entry s c) ∧ (s' ∈ m.final → s ∈ j.final)

section Merging

variable {m j : Fsm} {E : Nat → Nat → Prop}

theorem Merging.step (h : Merging m E j) (htrans : ∀ a b c, E a b → E b c → E a c) {a b : Nat}
    (ha : a < m.size) (hab : E a b) : Merging m E (j.mergeEpsilonConnection a b) := by
  have hcases : ∀ {s}, s < j.size ∨ ((j.mergeEpsilonConnection a b).size ≤ s ∧ j.size ≤ s) := by
    intro s
    rw [size_mergeEpsilonConnection, and_self]
    exact Nat.lt_or_ge s j.size
  refine ⟨(size_mergeEpsilonConnection j a b).trans h.size, h.initial, ?_, ?_, ?_, ?_, ?_⟩
  · intro s t
    rcases hcases with hs | ⟨hs, hs'⟩
    · rw [mem_entry_mergeEpsilonConnection j hs, h.silent, h.silent]
      constructor
      · rintro (ht | ⟨rfl, ht⟩)
        · exact ht
        · exact htrans _ _ _ hab ht
      · exact Or.inl
    · rw [entry_of_size_le hs, ← h.silent, entry_of_size_le hs']
  · intro s c t ht
    rcases hcases with hs | ⟨hs, hs'⟩
    · exact (mem_entry_mergeEpsilonConnection j hs).mpr (Or.inl (h.above s c t ht))
    · have := h.above s c t ht
      rw [entry_of_size_le hs'] at this
      exact absurd this (Finset.notMem_empty t)
  · intro s c t hc ht
    rcases hcases with hs | ⟨hs, hs'⟩
    · rcases (mem_entry_mergeEpsilonConnection j hs).mp ht with hold | ⟨rfl, hnew⟩
      · exact h.below s c t hc hold
      · obtain ⟨s', rfl | hs', ht'⟩ := h.below b c t hc hnew
        · exact ⟨s', Or.inr hab, ht'⟩
        · exact ⟨s', Or.inr (htrans _ _ _ hab hs'), ht'⟩
    · rw [entry_of_size_le hs] at ht
      exact absurd ht (Finset.notMem_empty t)
  · intro s hs
    exact (mem_final_mergeEpsilonConnection j).mpr (Or.inl (h.final_above s hs))
  · intro s hs
    rcases (mem_final_mergeEpsilonConnection j).mp hs with hs | ⟨rfl, hb⟩
    · exact h.final_below s hs
    · obtain ⟨s', rfl | hs', hf⟩ := h.final_below b hb
      · exact ⟨s', Or.inr hab, hf⟩
      · exact ⟨s', Or.inr (htrans _ _ _ hab hs'), hf⟩

/-- What a merge leaves behind. -/
theorem Merging.step_gains (h : Merging m E j) {a b : Nat} (ha : a < m.size) :
    (∀ c t, t ∈ m.entry b c → t ∈ (j.mergeEpsilonConnection a b).entry a c) ∧
      (b ∈ m.final → a ∈ (j.mergeEpsilonConnection a b).final) := by
  have hs : a < j.size := by rw [h.size]; exact ha
  constructor
  · intro c t ht
    exact (mem_entry_mergeEpsilonConnection j hs).mpr (Or.inr ⟨rfl, h.above b c t ht⟩)
  · intro hb
    exact (mem_final_mergeEpsilonConnection j).mpr (Or.inr ⟨rfl, h.final_above b hb⟩)

/-- Nothing is lost in a step. -/
def Grows (j k : Fsm) : Prop :=
  (∀ s c t, t ∈ j.entry s c → t ∈ k.entry s c) ∧ ∀ s, s ∈ j.final → s ∈ k.final

theorem grows_mergeEpsilonConnection (j : Fsm) (a b : Nat) :
    Grows j (j.mergeEpsilonConnection a b) := by
  constructor
  · intro s c t ht
    by_cases hs : s < j.size
    · exact (mem_entry_mergeEpsilonConnection j hs).mpr (Or.inl ht)
    · rw [entry_of_size_le (Nat.le_of_not_lt hs)] at ht
      exact absurd ht (Finset.notMem_empty t)
  · intro s hs
    exact (mem_final_mergeEpsilonConnection j).mpr (Or.inl hs)

theorem Grows.trans {i j k : Fsm} (h : Grows i j) (h' : Grows j k) : Grows i k :=
  ⟨fun s c t ht => h'.1 s c t (h.1 s c t ht), fun s hs => h'.2 s (h.2 s hs)⟩

theorem Merged.grows {k : Fsm} {s : Nat} (h : Merged m E j s) (hg : Grows j k) :
    Merged m E k s :=
  fun s' hs' => ⟨fun c t ht => hg.1 s c t ((h s' hs').1 c t ht), fun hf => hg.2 s ((h s' hs').2 hf)⟩

theorem Merging.mergeList (targets : List Nat) (h : Merging m E j)
    (htrans : ∀ a b c, E a b → E b c → E a c) {a : Nat} (ha : a < m.size)
    (ht : ∀ t ∈ targets, E a t) :
    let k := targets.foldl (fun j t => if t ≠ a then j.mergeEpsilonConnection a t else j) j
    Merging m E k ∧ Grows j k ∧ ∀ t ∈ targets,
      (∀ c u, u ∈ m.entry t c → u ∈ k.entry a c) ∧ (t ∈ m.final → a ∈ k.final) := by
  induction targets generalizing j with
  | nil =>
    exact ⟨h, ⟨fun _ _ _ ht => ht, fun _ hs => hs⟩, fun t ht => absurd ht List.not_mem_nil⟩
  | cons b targets ih =>
    have hab : E a b := ht b List.mem_cons_self
    have ht' : ∀ t ∈ targets, E a t := fun t hmem => ht t (List.mem_cons_of_mem b hmem)
    rw [List.foldl_cons]
    by_cases hba : b = a
    · rw [if_neg (not_not.mpr hba)]
      obtain ⟨hk, hg, hall⟩ := ih h ht'
      refine ⟨hk, hg, fun t hmem => ?_⟩
      rcases List.mem_cons.mp hmem with rfl | hmem
      · subst hba
        exact ⟨fun c u hu => hg.1 _ c u (h.above _ c u hu), fun hf => hg.2 _ (h.final_above _ hf)⟩
      · exact hall t hmem
    · rw [if_pos hba]
      obtain ⟨hk, hg, hall⟩ := ih (h.step htrans ha hab) ht'
      refine ⟨hk, (grows_mergeEpsilonConnection j a b).trans hg, fun t hmem => ?_⟩
      rcases List.mem_cons.mp hmem with rfl | hmem
      · obtain ⟨hentry, hfinal⟩ := h.step_gains (b := t) ha
        exact ⟨fun c u hu => hg.1 _ c u (hentry c u hu), fun hf => hg.2 _ (hfinal hf)⟩
      · exact hall t hmem

theorem Merging.mergeState (h : Merging m E j) (htrans : ∀ a b c, E a b → E b c → E a c)
    {a : Nat} (ha : a < m.size) :
    Merging m E (j.mergeState a) ∧ Grows j (j.mergeState a) ∧ Merged m E (j.mergeState a) a := by
  have hmem : ∀ t, t ∈ (j.destinations a epsilon).sort ↔ E a t := by
    intro t
    rw [Finset.mem_sort, destinations_eq_entry, h.silent]
  obtain ⟨hk, hg, hall⟩ := h.mergeList (j.destinations a epsilon).sort htrans ha
    fun t ht => (hmem t).mp ht
  exact ⟨hk, hg, fun s' hs' => hall s' ((hmem s').mpr hs')⟩

theorem Merging.mergeStates (h : Merging m E j) (htrans : ∀ a b c, E a b → E b c → E a c)
    {n : Nat} (hn : n ≤ m.size) :
    Merging m E ((List.range n).foldl Fsm.mergeState j) ∧
      ∀ s < n, Merged m E ((List.range n).foldl Fsm.mergeState j) s := by
  induction n with
  | zero => exact ⟨h, fun s hs => absurd hs (Nat.not_lt_zero s)⟩
  | succ n ih =>
    obtain ⟨hk, hall⟩ := ih (Nat.le_of_succ_le hn)
    rw [List.range_succ, List.foldl_append]
    obtain ⟨hk', hg, hlast⟩ := hk.mergeState htrans (a := n) hn
    refine ⟨hk', fun s hs => ?_⟩
    rcases Nat.lt_succ_iff_lt_or_eq.mp hs with hlt | rfl
    · exact (hall s hlt).grows hg
    · exact hlast

end Merging

/-! ## The whole of it -/

@[simp] theorem size_dropEpsilons (m : Fsm) : m.dropEpsilons.size = m.size := by
  simp only [size, dropEpsilons, List.length_map]

theorem entry_dropEpsilons (m : Fsm) (s : Nat) (c : Letter) :
    m.dropEpsilons.entry s c = if c = epsilon then ∅ else m.entry s c := by
  by_cases hs : s < m.size
  · have hrow : m.dropEpsilons.row s = Function.update (m.row s) epsilon none := by
      unfold dropEpsilons row
      simp only [List.getElem?_map]
      rw [List.getElem?_eq_getElem hs]
      rfl
    unfold entry
    rw [hrow]
    split
    · rename_i hc
      rw [hc, Function.update_self]
      rfl
    · rename_i hc
      rw [Function.update_of_ne hc]
  · have hle := Nat.le_of_not_lt hs
    rw [entry_of_size_le hle, entry_of_size_le (by rw [size_dropEpsilons]; exact hle), ite_self]

section RemoveEpsilons

variable {m : Fsm}

theorem removeEpsilons_letters (m : Fsm) :
    ∃ eq, Partition.Sound eq (fun c => c ≠ epsilon) [] m.removeEpsilons.letters :=
  ⟨_, sound_sparse _⟩

/-- Everything that `RemoveEpsilons` does to the table. -/
theorem removeEpsilons_spec (h : m.Valid) :
    m.removeEpsilons.size = m.size ∧ m.removeEpsilons.initial = m.initial ∧
      (∀ s, m.removeEpsilons.targets s epsilon = ∅) ∧
      (∀ s c t, c ≠ epsilon → (t ∈ m.removeEpsilons.targets s c ↔
        ∃ s', Silent m.nfa s s' ∧ t ∈ m.targets s' c)) ∧
      ∀ s, s ∈ m.removeEpsilons.final ↔ ∃ s', Silent m.nfa s s' ∧ s' ∈ m.final := by
  have hsparse : ∀ s c, m.removeEpsilons.targets s c =
      m.unsparse.closeEpsilons.mergeEpsilons.dropEpsilons.entry s c :=
    fun s c => targets_sparse _ s c
  have hlt : ∀ s t, t ∈ m.unsparse.entry s epsilon → t < m.unsparse.size := by
    intro s t ht
    rw [entry_unsparse] at ht
    rw [size_unsparse]
    exact h.targets_lt ht
  have hclosed := closed_closeEpsilons hlt
  set E := Relation.TransGen fun s t => t ∈ m.unsparse.entry s epsilon with hE
  have hsilent : ∀ s s', Silent m.nfa s s' ↔ s' = s ∨ E s s' := by
    intro s s'
    have hstep : (fun s t => t ∈ m.nfa.step s none) =
        fun s t => t ∈ m.unsparse.entry s epsilon := by
      funext s t
      rw [entry_unsparse]
      rfl
    unfold Silent
    rw [hstep, Relation.reflTransGen_iff_eq_or_transGen]
  have htrans : ∀ a b c, E a b → E b c → E a c := fun _ _ _ hab hbc => hab.trans hbc
  set k := m.unsparse.closeEpsilons with hk
  have hstart : Merging k E k :=
    ⟨rfl, rfl, hclosed.silent, fun _ _ _ ht => ht,
      fun s c t _ ht => ⟨s, Or.inl rfl, ht⟩, fun _ hs => hs, fun s hs => ⟨s, Or.inl rfl, hs⟩⟩
  obtain ⟨hmerging, hmerged⟩ := hstart.mergeStates htrans (Nat.le_refl k.size)
  have hmerge : (List.range k.size).foldl mergeState k = k.mergeEpsilons := rfl
  rw [hmerge] at hmerging hmerged
  have hsize : k.size = m.size := hclosed.size.trans (size_unsparse m)
  have hentry : ∀ s c, c ≠ epsilon → k.entry s c = m.targets s c := by
    intro s c hc
    rw [← entry_unsparse]
    exact hclosed.other s c hc
  have hfinal : k.final = m.final := hclosed.final
  refine ⟨?_, hmerging.initial.trans hclosed.initial, ?_, ?_, ?_⟩
  · exact (size_dropEpsilons _).trans (hmerging.size.trans hsize)
  · intro s
    rw [hsparse, entry_dropEpsilons, if_pos rfl]
  · intro s c t hc
    rw [hsparse, entry_dropEpsilons, if_neg hc]
    constructor
    · intro ht
      obtain ⟨s', hs', ht'⟩ := hmerging.below s c t hc ht
      rw [hentry s' c hc] at ht'
      exact ⟨s', (hsilent s s').mpr hs', ht'⟩
    · rintro ⟨s', hs', ht⟩
      rw [← hentry s' c hc] at ht
      rcases (hsilent s s').mp hs' with rfl | hE'
      · exact hmerging.above _ c t ht
      · exact (hmerged s (by rw [hsize, ← size_unsparse]; exact (hclosed.lt s s' hE').1) s'
          hE').1 c t ht
  · intro s
    show s ∈ k.mergeEpsilons.final ↔ _
    constructor
    · intro hs
      obtain ⟨s', hs', hf⟩ := hmerging.final_below s hs
      rw [hfinal] at hf
      exact ⟨s', (hsilent s s').mpr hs', hf⟩
    · rintro ⟨s', hs', hf⟩
      rw [← hfinal] at hf
      rcases (hsilent s s').mp hs' with rfl | hE'
      · exact hmerging.final_above _ hf
      · exact (hmerged s (by rw [hsize, ← size_unsparse]; exact (hclosed.lt s s' hE').1) s'
          hE').2 hf

theorem Valid.removeEpsilons (h : m.Valid) : m.removeEpsilons.Valid := by
  obtain ⟨hsize, hinitial, hnone, hmem, hfinal⟩ := removeEpsilons_spec h
  have hsource : ∀ {s s'}, Silent m.nfa s s' → s' < m.size → s < m.size := by
    intro s s' hs hlt
    induction hs using Relation.ReflTransGen.head_induction_on with
    | refl => exact hlt
    | head step _ _ =>
      by_contra hge
      rw [mem_step, targets_of_size_le (Nat.le_of_not_lt hge)] at step
      exact absurd step (Finset.notMem_empty _)
  refine ⟨by rw [hsize, hinitial]; exact h.initial_lt, ?_, ?_, Or.inr (removeEpsilons_letters m),
    sparse_inv_epsilon _, ?_, fun ha => absurd ha Bool.false_ne_true,
    fun ha => absurd ha Bool.false_ne_true, fun ha => absurd ha Bool.false_ne_true⟩
  · intro s hs
    obtain ⟨s', hs', hf⟩ := (hfinal s).mp hs
    rw [hsize]
    exact hsource hs' (h.final_lt s' hf)
  · intro s c tos hr t ht
    have hmem' : t ∈ m.removeEpsilons.targets s c := by
      have he : m.removeEpsilons.targets s c = m.removeEpsilons.entry s c := targets_sparse _ s c
      rw [he]
      unfold entry
      rw [hr]
      exact ht
    rw [hsize]
    by_cases hc : c = epsilon
    · rw [hc, hnone] at hmem'
      exact absurd hmem' (Finset.notMem_empty t)
    · obtain ⟨s', -, ht'⟩ := (hmem s c t hc).mp hmem'
      exact h.targets_lt ht'
  · intro s c k hk
    have hklass : m.removeEpsilons.klass c = k := by
      unfold klass
      rw [hk, Option.getD_some]
    have hrow : m.removeEpsilons.row s (m.removeEpsilons.klass c) = m.removeEpsilons.row s c :=
      sparse_klass_row _ s c
    rw [← hklass, hrow]
    exact Or.inr rfl

theorem no_silent_removeEpsilons (h : m.Valid) (s : Nat) :
    m.removeEpsilons.nfa.step s none = ∅ := by
  obtain ⟨-, -, hnone, -, -⟩ := removeEpsilons_spec h
  refine Set.eq_empty_of_forall_notMem fun t ht => ?_
  rw [mem_step] at ht
  have hn : m.removeEpsilons.targets s (label none) = ∅ := hnone s
  rw [hn] at ht
  exact absurd ht (Finset.notMem_empty t)

theorem acceptsFrom_removeEpsilons (h : m.Valid) (s : Nat) :
    acceptsFrom m.removeEpsilons.nfa s = acceptsFrom m.nfa s := by
  obtain ⟨-, -, -, hmem, hfinal⟩ := removeEpsilons_spec h
  exact acceptsFrom_closure (no_silent_removeEpsilons h)
    (fun s c t => hmem s c.1 t c.2) (fun s => hfinal s) s

theorem lang_removeEpsilons (h : m.Valid) : m.removeEpsilons.lang = m.lang := by
  obtain ⟨-, hinitial, -, -, -⟩ := removeEpsilons_spec h
  rw [lang_eq, lang_eq, hinitial, acceptsFrom_removeEpsilons h]

theorem silent_free_removeEpsilons (h : m.Valid) (s : Nat) :
    m.removeEpsilons.nfa.step s none = ∅ ∧
      acceptsFrom m.removeEpsilons.nfa s = acceptsFrom m.nfa s :=
  ⟨no_silent_removeEpsilons h s, acceptsFrom_removeEpsilons h s⟩

/-- Any number of the letter 'a', with silent steps from the start. -/
def manyLetters : Fsm := (new.append (byte 0x61).1).iterate

theorem silent_free_removeEpsilons_manyLetters :
    (manyLetters.nfa.step manyLetters.initial none).Nonempty ∧
      manyLetters.removeEpsilons.nfa.step manyLetters.initial none = ∅ ∧
      acceptsFrom manyLetters.removeEpsilons.nfa manyLetters.initial =
        acceptsFrom manyLetters.nfa manyLetters.initial :=
  ⟨⟨3, mem_step.mpr (by decide)⟩, silent_free_removeEpsilons
    (valid_new.appendOneOf rfl (List.cons_ne_nil _ _)).iterate _⟩

end RemoveEpsilons

end Fsm
end Pire
end MediaServer
