/-
Alternation of automata.

`operator |=` keeps the start of an automaton that is an alternation already and
adds to it, so that a run of alternatives has one start.  All four ways it joins
two automata have the union of the two languages (`lang_alternate`): the start
goes by ε to the heads of both sides, and no way leads back to it.
-/
import MediaServer.Pire.Iteration

namespace MediaServer
namespace Pire
namespace Fsm

open Automata

/-- The two automata side by side, with the final states of both. -/
def besides (m rhs : Fsm) : Fsm :=
  { m.importFsm rhs with final := m.final ∪ rhs.final.image (m.size + ·) }

/-- `operator |=` -/
def alternate (m rhs : Fsm) : Fsm :=
  let n := m.size
  let j := m.besides rhs
  let j :=
    if !m.isAlternative && !rhs.isAlternative then
      let j := j.grow 1
      let i := j.size - 1
      { (j.connect i j.initial epsilon).connect i (n + rhs.initial) epsilon with initial := i }
    else if m.isAlternative && !rhs.isAlternative then
      j.connect j.initial (n + rhs.initial) epsilon
    else if !m.isAlternative && rhs.isAlternative then
      { j.connect (n + rhs.initial) j.initial epsilon with initial := n + rhs.initial }
    else
      ((rhs.destinations rhs.initial epsilon).sort).foldl (fun j t =>
        (j.connect j.initial (n + t) epsilon).disconnect (n + rhs.initial) (n + t) epsilon) j
  { j with determined := false, isAlternative := true }

/-! ## What is connected -/

theorem targets_besides (m rhs : Fsm) (s : Nat) (c : Letter) :
    (m.besides rhs).targets s c = (m.importFsm rhs).targets s c := rfl

@[simp] theorem size_besides (m rhs : Fsm) : (m.besides rhs).size = m.size + rhs.size :=
  size_importFsm m rhs

theorem mem_final_besides {m rhs : Fsm} {s : Nat} : s ∈ (m.besides rhs).final ↔
    s ∈ m.final ∨ ∃ u ∈ rhs.final, s = m.size + u := by
  show s ∈ m.final ∪ rhs.final.image (m.size + ·) ↔ _
  simp [eq_comm]

theorem mem_targets_connect_of_full {j : Fsm} (hj : j.letters = Partition.empty) {a b s t : Nat}
    (hs : s < j.size) {c : Letter} : t ∈ (j.connect a b epsilon).targets s c ↔
      t ∈ j.targets s c ∨ (s = a ∧ c = epsilon ∧ t = b) := by
  unfold connect
  rw [mem_targets_connectWhere (free_of_letters_empty hj _) hs, decide_eq_true_eq]

theorem mem_targets_disconnect_of_full {j : Fsm} (hj : j.letters = Partition.empty)
    {a b s t : Nat} {c : Letter} : t ∈ (j.disconnect a b epsilon).targets s c ↔
      t ∈ j.targets s c ∧ ¬ (s = a ∧ c = epsilon ∧ t = b) := by
  have hklass : ∀ c, (j.disconnect a b epsilon).klass c = c ∧ j.klass c = c := by
    intro c
    unfold klass disconnect
    simp only [hj]
    exact ⟨rfl, rfl⟩
  unfold targets
  rw [(hklass c).1, (hklass c).2]
  unfold row disconnect
  simp only [List.getElem?_mapIdx]
  cases hr : j.transitions[s]? with
  | none => simp [emptyRow]
  | some r =>
    simp only [Option.map_some, Option.getD_some]
    by_cases hs : s = a
    · rw [if_pos hs]
      by_cases hc : c = epsilon
      · subst hc
        rw [Function.update_self]
        cases r epsilon with
        | none => simp
        | some tos => simp [hs, and_comm]
      · rw [Function.update_of_ne hc]
        simp [hc]
    · rw [if_neg hs]
      simp [hs]

/-- The loop that moves the alternatives of `rhs` to the start of `m`. -/
theorem mem_targets_moves (moved : List Nat) (j : Fsm) (hj : j.letters = Partition.empty)
    {n a : Nat} (ha : a < j.size) (hne : a ≠ j.initial) :
    let j' := moved.foldl (fun j t =>
      (j.connect j.initial (n + t) epsilon).disconnect a (n + t) epsilon) j
    j'.size = j.size ∧ j'.initial = j.initial ∧ j'.final = j.final ∧
      j'.letters = Partition.empty ∧ ∀ s c t, s < j.size →
        (t ∈ j'.targets s c ↔ (t ∈ j.targets s c ∧ ¬ (s = a ∧ c = epsilon ∧
          ∃ u ∈ moved, t = n + u)) ∨ (s = j.initial ∧ c = epsilon ∧ ∃ u ∈ moved, t = n + u)) := by
  induction moved generalizing j with
  | nil =>
    refine ⟨rfl, rfl, rfl, hj, fun s c t _ => ?_⟩
    simp
  | cons v moved ih =>
    have hsize : ((j.connect j.initial (n + v) epsilon).disconnect a (n + v) epsilon).size =
        j.size := by
      rw [← size_connect j j.initial (n + v) epsilon]
      simp only [size, disconnect, List.length_mapIdx]
    obtain ⟨h1, h2, h3, h4, h5⟩ := ih
      ((j.connect j.initial (n + v) epsilon).disconnect a (n + v) epsilon) hj
      (by rw [hsize]; exact ha) hne
    refine ⟨h1.trans hsize, h2, h3, h4, fun s c t hs => ?_⟩
    have hone : t ∈ ((j.connect j.initial (n + v) epsilon).disconnect a (n + v)
        epsilon).targets s c ↔ (t ∈ j.targets s c ∨ (s = j.initial ∧ c = epsilon ∧ t = n + v)) ∧
          ¬ (s = a ∧ c = epsilon ∧ t = n + v) := by
      have hj' : (j.connect j.initial (n + v) epsilon).letters = Partition.empty := hj
      rw [mem_targets_disconnect_of_full hj', mem_targets_connect_of_full hj hs]
    rw [List.foldl_cons, h5 s c t (by rw [hsize]; exact hs), hone]
    have hi : ((j.connect j.initial (n + v) epsilon).disconnect a (n + v) epsilon).initial =
        j.initial := rfl
    rw [hi]
    simp only [List.mem_cons, exists_eq_or_imp]
    by_cases hi : s = j.initial
    · have hsa : s ≠ a := fun hs => hne (hs ▸ hi)
      simp only [hi, hi ▸ hsa, true_and, false_and, not_false_eq_true, and_true, and_or_left,
        or_assoc, or_self]
    · simp only [hi, false_and, or_false, and_or_left, not_or, and_assoc]

/-! ## Two automata under one start -/

/-- Where the alternatives of an automaton begin. -/
def heads (m : Fsm) : Finset Nat :=
  if m.isAlternative then m.targets m.initial epsilon else {m.initial}

/-- A state that alternation leaves as it is. -/
def Inner (m : Fsm) (s : Nat) : Prop := m.isAlternative = true → s ≠ m.initial

/-- What each way of joining two automata as alternatives brings about. -/
structure Joined (m rhs j : Fsm) : Prop where
  initial_lt : j.initial < j.size
  final_lt : ∀ s ∈ j.final, s < j.size
  targets_lt : ∀ s c, ∀ t ∈ j.targets s c, t < j.size
  letters : j.letters = Partition.empty
  not_final : j.initial ∉ j.final
  no_return : ∀ s c, j.initial ∉ j.targets s c
  start : ∀ c t, t ∈ j.targets j.initial c ↔
    c = epsilon ∧ (t ∈ m.heads ∨ ∃ u ∈ rhs.heads, t = m.size + u)
  left : ∀ s c t, s < m.size → m.Inner s → (t ∈ j.targets s c ↔ t ∈ m.targets s c)
  left_final : ∀ s, s < m.size → (s ∈ j.final ↔ s ∈ m.final)
  right : ∀ s c t, s < rhs.size → rhs.Inner s →
    (t ∈ j.targets (m.size + s) c ↔ ∃ u ∈ rhs.targets s c, t = m.size + u)
  right_final : ∀ s, s < rhs.size → (m.size + s ∈ j.final ↔ s ∈ rhs.final)

section Joined

variable {m rhs j : Fsm}

theorem Valid.inner (h : m.Valid) {s t : Nat} {c : Letter} (ht : t ∈ m.targets s c) : m.Inner t :=
  fun ha he => h.no_return ha s c (he ▸ ht)

theorem Valid.heads_inner (h : m.Valid) {t : Nat} (ht : t ∈ m.heads) :
    t < m.size ∧ m.Inner t := by
  unfold heads at ht
  split at ht
  · exact ⟨h.targets_lt ht, h.inner ht⟩
  · rename_i ha
    rw [Finset.mem_singleton.mp ht]
    exact ⟨h.initial_lt, fun ha' => absurd ha' ha⟩

/-- An automaton accepts what its heads do. -/
theorem mem_lang_iff_heads (h : m.Valid) (x : List Input) :
    x ∈ m.lang ↔ ∃ t ∈ m.heads, x ∈ acceptsFrom m.nfa t := by
  rw [lang_eq]
  unfold heads
  split
  · rename_i ha
    refine acceptsFrom_alternatives (fun o t => ?_) (h.not_final ha) x
    rw [mem_step]
    constructor
    · intro ht
      cases o with
      | none => exact ⟨rfl, ht⟩
      | some c =>
        have hsilent : m.targets m.initial (label (some c)) = ∅ := h.silent ha c.1 c.2
        rw [hsilent] at ht
        exact absurd ht (Finset.notMem_empty t)
    · rintro ⟨rfl, ht⟩
      exact ht
  · simp

theorem Joined.lang (hj : Joined m rhs j) (h : m.Valid) (h' : rhs.Valid) :
    j.lang = m.lang + rhs.lang := by
  have hleft : ∀ t, t < m.size ∧ m.Inner t → acceptsFrom j.nfa t = acceptsFrom m.nfa t := by
    intro t ht
    refine acceptsFrom_left (P := fun t => t < m.size ∧ m.Inner t) ?_ ?_ ?_ ht
    · intro s o t _ hst
      exact ⟨h.closed s o t hst, h.inner hst⟩
    · intro s c t hs
      exact hj.left s c t hs.1 hs.2
    · intro s hs
      exact hj.left_final s hs.1
  have hright : ∀ t, t < rhs.size ∧ rhs.Inner t →
      acceptsFrom j.nfa (m.size + t) = acceptsFrom rhs.nfa t := by
    intro t ht
    refine acceptsFrom_right m.size (P := fun t => t < rhs.size ∧ rhs.Inner t) ?_ ?_ ?_ ht
    · intro s o t _ hst
      exact ⟨h'.closed s o t hst, h'.inner hst⟩
    · intro s c t hs
      exact hj.right s c t hs.1 hs.2
    · intro s hs
      exact hj.right_final s hs.1
  ext x
  rw [Language.mem_add, mem_lang_iff_heads h, mem_lang_iff_heads h', lang_eq,
    acceptsFrom_alternatives (E := fun t => t ∈ m.heads ∨ ∃ u ∈ rhs.heads, t = m.size + u)
      (fun o t => by rw [mem_step, hj.start, label_eq_epsilon]) hj.not_final]
  constructor
  · rintro ⟨t, ht | ⟨u, hu, rfl⟩, hx⟩
    · rw [hleft t (h.heads_inner ht)] at hx
      exact Or.inl ⟨t, ht, hx⟩
    · rw [hright u (h'.heads_inner hu)] at hx
      exact Or.inr ⟨u, hu, hx⟩
  · rintro (⟨t, ht, hx⟩ | ⟨u, hu, hx⟩)
    · exact ⟨t, Or.inl ht, by rw [hleft t (h.heads_inner ht)]; exact hx⟩
    · exact ⟨m.size + u, Or.inr ⟨u, hu, rfl⟩, by rw [hright u (h'.heads_inner hu)]; exact hx⟩

/-- Joined automata stay so under the flags that `operator |=` sets. -/
theorem Joined.valid (hj : Joined m rhs j) :
    Valid { j with determined := false, isAlternative := true } where
  initial_lt := hj.initial_lt
  final_lt := hj.final_lt
  entries_lt s c tos hr t ht := by
    refine hj.targets_lt s c t ?_
    have hklass : j.klass c = c := by
      unfold klass
      rw [hj.letters]
      rfl
    unfold targets
    rw [hklass, show j.row s c = some tos from hr]
    exact ht
  letters := Or.inl hj.letters
  inv_epsilon := by
    show j.letters.inv epsilon = none
    rw [hj.letters]
    rfl
  repeated s c k hk := by
    have hk' : j.letters.inv c = some k := hk
    rw [hj.letters] at hk'
    exact absurd hk'.symm (Option.some_ne_none k)
  no_return _ := hj.no_return
  silent _ c hc := by
    refine Finset.eq_empty_of_forall_notMem fun t ht => ?_
    exact hc ((hj.start c t).mp ht).1
  not_final _ := hj.not_final

end Joined

/-! ## The four ways -/

section Ways

variable {m rhs : Fsm}

theorem final_besides_lt (h : m.Valid) (h' : rhs.Valid) {s : Nat}
    (hs : s ∈ (m.besides rhs).final) : s < m.size + rhs.size := by
  rcases mem_final_besides.mp hs with hs | ⟨u, hu, rfl⟩
  · exact Nat.lt_of_lt_of_le (h.final_lt s hs) (Nat.le_add_right _ _)
  · exact Nat.add_lt_add_left (h'.final_lt u hu) _

theorem final_besides_left {s : Nat} (hs : s < m.size) :
    s ∈ (m.besides rhs).final ↔ s ∈ m.final := by
  rw [mem_final_besides]
  constructor
  · rintro (hf | ⟨u, -, rfl⟩)
    · exact hf
    · omega
  · exact Or.inl

theorem final_besides_right (h : m.Valid) {s : Nat} :
    m.size + s ∈ (m.besides rhs).final ↔ s ∈ rhs.final := by
  rw [mem_final_besides]
  constructor
  · rintro (hf | ⟨u, hu, he⟩)
    · have := h.final_lt _ hf
      omega
    · rw [Nat.add_left_cancel he]
      exact hu
  · intro hs
    exact Or.inr ⟨s, hs, rfl⟩

theorem targets_besides_lt (h : m.Valid) (h' : rhs.Valid) {s t : Nat} {c : Letter}
    (ht : t ∈ (m.besides rhs).targets s c) :
    (s < m.size ∧ t < m.size ∧ t ∈ m.targets s c) ∨
      ∃ z u, s = m.size + z ∧ t = m.size + u ∧ u < rhs.size ∧ u ∈ rhs.targets z c := by
  rw [targets_besides] at ht
  by_cases hs : s < m.size
  · rw [targets_importFsm_left h rhs hs] at ht
    exact Or.inl ⟨hs, h.targets_lt ht, ht⟩
  · obtain ⟨z, rfl⟩ := Nat.exists_eq_add_of_le (Nat.le_of_not_lt hs)
    obtain ⟨u, hu, rfl⟩ := (mem_targets_importFsm_right m h').mp ht
    exact Or.inr ⟨z, u, rfl, rfl, h'.targets_lt hu, hu⟩

/-- Neither side is an alternation: a new start. -/
theorem joined_new (h : m.Valid) (h' : rhs.Valid) (ha : m.isAlternative = false)
    (ha' : rhs.isAlternative = false) :
    Joined m rhs { (((m.besides rhs).grow 1).connect (m.size + rhs.size) m.initial
      epsilon).connect (m.size + rhs.size) (m.size + rhs.initial) epsilon with
        initial := m.size + rhs.size } := by
  set j : Fsm := { (((m.besides rhs).grow 1).connect (m.size + rhs.size) m.initial
      epsilon).connect (m.size + rhs.size) (m.size + rhs.initial) epsilon with
        initial := m.size + rhs.size } with hj
  have hi := h.initial_lt
  have hi' := h'.initial_lt
  have hsize : j.size = m.size + rhs.size + 1 := by
    show (Fsm.connect _ _ _ _).size = _
    rw [size_connect, size_connect, size_grow, size_besides]
  have hfinal : ∀ s, s ∈ j.final ↔ s ∈ (m.besides rhs).final := fun _ => Iff.rfl
  have htargets : ∀ {s t c}, s < m.size + rhs.size + 1 → (t ∈ j.targets s c ↔
      t ∈ (m.besides rhs).targets s c ∨
        (s = m.size + rhs.size ∧ c = epsilon ∧ (t = m.initial ∨ t = m.size + rhs.initial))) := by
    intro s t c hs
    show t ∈ (Fsm.connect _ _ _ _).targets s c ↔ _
    rw [mem_targets_connect_of_full rfl (by rw [size_connect, size_grow, size_besides]; exact hs),
      mem_targets_connect_of_full rfl (by rw [size_grow, size_besides]; exact hs), targets_grow]
    tauto
  have hheads : m.heads = {m.initial} := by unfold heads; rw [ha]; rfl
  have hheads' : rhs.heads = {rhs.initial} := by unfold heads; rw [ha']; rfl
  refine ⟨by rw [hsize]; exact Nat.lt_succ_self _, ?_, ?_, rfl, ?_, ?_, ?_, ?_, ?_, ?_, ?_⟩
  · intro s hs
    rw [hsize]
    exact Nat.lt_succ_of_lt (final_besides_lt h h' hs)
  · intro s c t ht
    rw [hsize]
    by_cases hs : s < m.size + rhs.size + 1
    · rcases (htargets hs).mp ht with ht | ⟨-, -, rfl | rfl⟩
      · rcases targets_besides_lt h h' ht with ⟨-, ht, -⟩ | ⟨z, u, -, rfl, hu, -⟩
        · omega
        · omega
      · omega
      · omega
    · rw [targets_of_size_le (by rw [hsize]; omega)] at ht
      exact absurd ht (Finset.notMem_empty t)
  · intro hf
    exact Nat.lt_irrefl _ (final_besides_lt h h' hf)
  · intro s c ht
    have hr : m.size + rhs.size ∈ j.targets s c := ht
    by_cases hs : s < m.size + rhs.size + 1
    · rcases (htargets hs).mp hr with ht | ⟨-, -, ht | ht⟩
      · rcases targets_besides_lt h h' ht with ⟨-, ht, -⟩ | ⟨z, u, -, he, hu, -⟩
        · omega
        · omega
      · omega
      · omega
    · rw [targets_of_size_le (by rw [hsize]; omega)] at hr
      exact absurd hr (Finset.notMem_empty _)
  · intro c t
    show t ∈ j.targets (m.size + rhs.size) c ↔ _
    rw [htargets (Nat.lt_succ_self _), targets_of_size_le (by rw [size_besides]), hheads, hheads']
    simp
  · intro s c t hs _
    rw [htargets (by omega), targets_besides, targets_importFsm_left h rhs hs]
    have hne : s ≠ m.size + rhs.size := by omega
    simp only [hne, false_and, or_false]
  · intro s hs
    exact final_besides_left hs
  · intro s c t hs _
    rw [htargets (by omega), targets_besides, mem_targets_importFsm_right m h']
    have hne : m.size + s ≠ m.size + rhs.size := by omega
    simp only [hne, false_and, or_false]
  · intro s _
    exact final_besides_right h

/-- Only the left side is an alternation: its start gets one more alternative. -/
theorem joined_left (h : m.Valid) (h' : rhs.Valid) (ha : m.isAlternative = true)
    (ha' : rhs.isAlternative = false) :
    Joined m rhs ((m.besides rhs).connect m.initial (m.size + rhs.initial) epsilon) := by
  have hi := h.initial_lt
  have hi' := h'.initial_lt
  set j := (m.besides rhs).connect m.initial (m.size + rhs.initial) epsilon with hj
  have hsize : j.size = m.size + rhs.size := by rw [hj, size_connect, size_besides]
  have htargets : ∀ {s t c}, (t ∈ j.targets s c ↔ t ∈ (m.besides rhs).targets s c ∨
      (s = m.initial ∧ c = epsilon ∧ t = m.size + rhs.initial)) := by
    intro s t c
    by_cases hs : s < m.size + rhs.size
    · exact mem_targets_connect_of_full rfl (by rw [size_besides]; exact hs)
    · rw [targets_of_size_le (by rw [hsize]; omega),
        targets_of_size_le (by rw [size_besides]; omega)]
      have hne : s ≠ m.initial := by omega
      simp [hne]
  have hheads : m.heads = m.targets m.initial epsilon := by unfold heads; rw [ha]; rfl
  have hheads' : rhs.heads = {rhs.initial} := by unfold heads; rw [ha']; rfl
  have hinitial : j.initial = m.initial := rfl
  refine ⟨by rw [hsize, hinitial]; omega, ?_, ?_, rfl, ?_, ?_, ?_, ?_, ?_, ?_, ?_⟩
  · intro s hs
    rw [hsize]
    exact final_besides_lt h h' hs
  · intro s c t ht
    rw [hsize]
    rcases htargets.mp ht with ht | ⟨-, -, rfl⟩
    · rcases targets_besides_lt h h' ht with ⟨-, ht, -⟩ | ⟨z, u, -, rfl, hu, -⟩
      · omega
      · omega
    · omega
  · intro hf
    exact h.not_final ha ((final_besides_left hi).mp hf)
  · intro s c ht
    rw [hinitial] at ht
    rcases htargets.mp ht with ht | ⟨-, -, he⟩
    · rcases targets_besides_lt h h' ht with ⟨-, -, ht⟩ | ⟨z, u, -, he, -, -⟩
      · exact h.no_return ha s c ht
      · omega
    · omega
  · intro c t
    rw [hinitial, htargets, targets_besides, targets_importFsm_left h rhs hi, hheads, hheads']
    by_cases hc : c = epsilon
    · simp [hc]
    · simp [hc, h.silent ha c hc]
  · intro s c t hs hin
    rw [htargets, targets_besides, targets_importFsm_left h rhs hs]
    simp only [hin ha, false_and, or_false]
  · intro s hs
    exact final_besides_left hs
  · intro s c t _ _
    rw [htargets, targets_besides, mem_targets_importFsm_right m h']
    have hne : m.size + s ≠ m.initial := by omega
    simp only [hne, false_and, or_false]
  · intro s _
    exact final_besides_right h

/-- Only the right side is an alternation: its start is the start. -/
theorem joined_right (h : m.Valid) (h' : rhs.Valid) (ha : m.isAlternative = false)
    (ha' : rhs.isAlternative = true) :
    Joined m rhs { (m.besides rhs).connect (m.size + rhs.initial) m.initial epsilon with
      initial := m.size + rhs.initial } := by
  have hi := h.initial_lt
  have hi' := h'.initial_lt
  set j : Fsm := { (m.besides rhs).connect (m.size + rhs.initial) m.initial epsilon with
    initial := m.size + rhs.initial } with hj
  have hsize : j.size = m.size + rhs.size := by
    show (Fsm.connect _ _ _ _).size = _
    rw [size_connect, size_besides]
  have htargets : ∀ {s t c}, (t ∈ j.targets s c ↔ t ∈ (m.besides rhs).targets s c ∨
      (s = m.size + rhs.initial ∧ c = epsilon ∧ t = m.initial)) := by
    intro s t c
    by_cases hs : s < m.size + rhs.size
    · exact mem_targets_connect_of_full rfl (by rw [size_besides]; exact hs)
    · rw [targets_of_size_le (by rw [hsize]; omega),
        targets_of_size_le (by rw [size_besides]; omega)]
      have hne : s ≠ m.size + rhs.initial := by omega
      simp [hne]
  have hheads : m.heads = {m.initial} := by unfold heads; rw [ha]; rfl
  have hheads' : rhs.heads = rhs.targets rhs.initial epsilon := by unfold heads; rw [ha']; rfl
  have hinitial : j.initial = m.size + rhs.initial := rfl
  refine ⟨by rw [hsize, hinitial]; omega, ?_, ?_, rfl, ?_, ?_, ?_, ?_, ?_, ?_, ?_⟩
  · intro s hs
    rw [hsize]
    exact final_besides_lt h h' hs
  · intro s c t ht
    rw [hsize]
    rcases htargets.mp ht with ht | ⟨-, -, rfl⟩
    · rcases targets_besides_lt h h' ht with ⟨-, ht, -⟩ | ⟨z, u, -, rfl, hu, -⟩
      · omega
      · omega
    · omega
  · intro hf
    exact h'.not_final ha' ((final_besides_right h).mp hf)
  · intro s c ht
    rw [hinitial] at ht
    rcases htargets.mp ht with ht | ⟨-, -, he⟩
    · rcases targets_besides_lt h h' ht with ⟨-, ht, -⟩ | ⟨z, u, -, he, -, hu⟩
      · omega
      · rw [← Nat.add_left_cancel he] at hu
        exact h'.no_return ha' z c hu
    · omega
  · intro c t
    rw [hinitial, htargets, targets_besides, mem_targets_importFsm_right m h', hheads, hheads']
    by_cases hc : c = epsilon
    · simp [hc, or_comm]
    · simp [hc, h'.silent ha' c hc]
  · intro s c t hs _
    rw [htargets, targets_besides, targets_importFsm_left h rhs hs]
    have hne : s ≠ m.size + rhs.initial := by omega
    simp only [hne, false_and, or_false]
  · intro s hs
    exact final_besides_left hs
  · intro s c t _ hin
    rw [htargets, targets_besides, mem_targets_importFsm_right m h']
    have hne : m.size + s ≠ m.size + rhs.initial := fun he => hin ha' (Nat.add_left_cancel he)
    simp only [hne, false_and, or_false]
  · intro s _
    exact final_besides_right h

/-- Both sides are alternations: the alternatives of the right one move. -/
theorem joined_both (h : m.Valid) (h' : rhs.Valid) (ha : m.isAlternative = true)
    (ha' : rhs.isAlternative = true) (moved : List Nat)
    (hmoved : ∀ u, u ∈ moved ↔ u ∈ rhs.targets rhs.initial epsilon) :
    Joined m rhs (moved.foldl (fun j t => (j.connect j.initial (m.size + t) epsilon).disconnect
      (m.size + rhs.initial) (m.size + t) epsilon) (m.besides rhs)) := by
  have hi := h.initial_lt
  have hi' := h'.initial_lt
  obtain ⟨hsize', hinitial, hfinal, hletters, hmem⟩ := mem_targets_moves moved (m.besides rhs) rfl
    (n := m.size) (a := m.size + rhs.initial) (by rw [size_besides]; omega)
    (show m.size + rhs.initial ≠ m.initial by omega)
  set j := moved.foldl (fun j t => (j.connect j.initial (m.size + t) epsilon).disconnect
    (m.size + rhs.initial) (m.size + t) epsilon) (m.besides rhs) with hj
  have hinitial : j.initial = m.initial := hinitial
  have hsize : j.size = m.size + rhs.size := hsize'.trans (size_besides m rhs)
  have hheads : m.heads = m.targets m.initial epsilon := by unfold heads; rw [ha]; rfl
  have hheads' : rhs.heads = rhs.targets rhs.initial epsilon := by unfold heads; rw [ha']; rfl
  have htargets : ∀ {s t c}, s < m.size + rhs.size → (t ∈ j.targets s c ↔
      (t ∈ (m.besides rhs).targets s c ∧ ¬ (s = m.size + rhs.initial ∧ c = epsilon ∧
        ∃ u ∈ moved, t = m.size + u)) ∨
        (s = m.initial ∧ c = epsilon ∧ ∃ u ∈ moved, t = m.size + u)) := by
    intro s t c hs
    exact hmem s c t (by rw [size_besides]; exact hs)
  refine ⟨by rw [hsize, hinitial]; omega, ?_, ?_, hletters, ?_, ?_, ?_, ?_, ?_, ?_, ?_⟩
  · intro s hs
    rw [hsize]
    rw [hfinal] at hs
    exact final_besides_lt h h' hs
  · intro s c t ht
    rw [hsize]
    by_cases hs : s < m.size + rhs.size
    · rcases (htargets hs).mp ht with ⟨ht, -⟩ | ⟨-, -, u, hu, rfl⟩
      · rcases targets_besides_lt h h' ht with ⟨-, ht, -⟩ | ⟨z, u, -, rfl, hu, -⟩
        · omega
        · omega
      · have := h'.targets_lt ((hmoved u).mp hu)
        omega
    · rw [targets_of_size_le (by rw [hsize]; omega)] at ht
      exact absurd ht (Finset.notMem_empty t)
  · intro hf
    rw [hfinal, hinitial] at hf
    exact h.not_final ha ((final_besides_left hi).mp hf)
  · intro s c ht
    rw [hinitial] at ht
    by_cases hs : s < m.size + rhs.size
    · rcases (htargets hs).mp ht with ⟨ht, -⟩ | ⟨-, -, u, -, he⟩
      · rcases targets_besides_lt h h' ht with ⟨-, -, ht⟩ | ⟨z, u, -, he, -, -⟩
        · exact h.no_return ha s c ht
        · omega
      · omega
    · rw [targets_of_size_le (by rw [hsize]; omega)] at ht
      exact absurd ht (Finset.notMem_empty _)
  · intro c t
    rw [hinitial, htargets (by omega), targets_besides, targets_importFsm_left h rhs hi, hheads,
      hheads']
    have hne : m.initial ≠ m.size + rhs.initial := by omega
    by_cases hc : c = epsilon
    · simp [hc, hne, hmoved]
    · simp [hc, h.silent ha c hc]
  · intro s c t hs hin
    rw [htargets (by omega), targets_besides, targets_importFsm_left h rhs hs]
    have hne : s ≠ m.size + rhs.initial := by omega
    simp only [hne, hin ha, false_and, or_false, not_false_eq_true, and_true]
  · intro s hs
    rw [hfinal]
    exact final_besides_left hs
  · intro s c t hs hin
    rw [htargets (by omega), targets_besides, mem_targets_importFsm_right m h']
    have hne : m.size + s ≠ m.size + rhs.initial := fun he => hin ha' (Nat.add_left_cancel he)
    have hne' : m.size + s ≠ m.initial := by omega
    simp only [hne, hne', false_and, or_false, not_false_eq_true, and_true]
  · intro s _
    rw [hfinal]
    exact final_besides_right h

/-! ## Alternation -/

theorem destinations_epsilon (h : m.Valid) (s : Nat) :
    m.destinations s epsilon = m.targets s epsilon := by
  have ht : m.translate epsilon = epsilon := by
    unfold translate
    rw [if_pos (by simp)]
  unfold destinations targets
  rw [ht, (h.free_epsilon epsilon).mpr rfl]

/-- Some automaton joined out of the two, with the flags set. -/
theorem alternate_joined (h : m.Valid) (h' : rhs.Valid) : ∃ j, Joined m rhs j ∧
    m.alternate rhs = { j with determined := false, isAlternative := true } := by
  unfold alternate
  cases ha : m.isAlternative <;> cases ha' : rhs.isAlternative
  · refine ⟨_, joined_new h h' ha ha', ?_⟩
    simp only [Bool.not_false, Bool.and_self, if_true, size_grow, size_besides,
      Nat.add_sub_cancel]
    rfl
  · exact ⟨_, joined_right h h' ha ha', rfl⟩
  · exact ⟨_, joined_left h h' ha ha', rfl⟩
  · refine ⟨_, joined_both h h' ha ha' (rhs.destinations rhs.initial epsilon).sort
      (fun u => ?_), rfl⟩
    rw [Finset.mem_sort, destinations_epsilon h']

theorem Valid.alternate (h : m.Valid) (h' : rhs.Valid) : (m.alternate rhs).Valid := by
  obtain ⟨j, hj, he⟩ := alternate_joined h h'
  rw [he]
  exact hj.valid

theorem lang_alternate (h : m.Valid) (h' : rhs.Valid) :
    (m.alternate rhs).lang = m.lang + rhs.lang := by
  obtain ⟨j, hj, he⟩ := alternate_joined h h'
  rw [he]
  exact hj.lang h h'

theorem not_final_alternate (h : m.Valid) (h' : rhs.Valid) :
    (m.alternate rhs).initial ∉ (m.alternate rhs).final := by
  obtain ⟨j, hj, he⟩ := alternate_joined h h'
  rw [he]
  exact hj.not_final

/-- Alternatives may be put together in any number, whichever way each is built. -/
theorem lang_foldl_alternate (l : List Fsm) {a : Fsm} (ha : a.Valid) (hl : ∀ m ∈ l, m.Valid) :
    (l.foldl alternate a).Valid ∧
      ∀ x, x ∈ (l.foldl alternate a).lang ↔ x ∈ a.lang ∨ ∃ m ∈ l, x ∈ m.lang := by
  induction l generalizing a with
  | nil => exact ⟨ha, fun x => by simp⟩
  | cons m l ih =>
    have hm := hl m List.mem_cons_self
    obtain ⟨hvalid, hlang⟩ := ih (ha.alternate hm) fun k hk => hl k (List.mem_cons_of_mem m hk)
    refine ⟨hvalid, fun x => ?_⟩
    rw [List.foldl_cons, hlang x, lang_alternate ha hm, Language.mem_add, List.exists_mem_cons_iff,
      or_assoc]

theorem lang_foldl_alternate_three :
    ([new.append beginMark, new, new.append endMark].foldl alternate makeFalse).Valid ∧
      ∀ x, x ∈ ([new.append beginMark, new, new.append endMark].foldl alternate makeFalse).lang ↔
        x ∈ makeFalse.lang ∨ ∃ m ∈ [new.append beginMark, new, new.append endMark], x ∈ m.lang := by
  refine lang_foldl_alternate _ valid_makeFalse fun m hm => ?_
  have happend : ∀ c, (new.append c).Valid := fun c =>
    valid_new.appendOneOf rfl (List.cons_ne_nil c [])
  simp only [List.mem_cons, List.not_mem_nil, or_false] at hm
  rcases hm with rfl | rfl | rfl
  · exact happend _
  · exact valid_new
  · exact happend _

end Ways

end Fsm
end Pire
end MediaServer
