/-
Letters that are put onto an automaton, and concatenation.

`concatenate` has the language that it is named for but for one case, which it
has by the way it joins two automata: it copies the steps that leave the start of
the right one, so that the empty word is lost when that start is itself final
(`lang_concatenate`).
-/
import MediaServer.Automata.Kleene
import MediaServer.Pire.Fsm
import Mathlib.Data.Finset.Sort

namespace MediaServer
namespace Pire
namespace Fsm

open Automata Computability

/-! ## Import -/

def shiftRow (n : Nat) (row : TransitionRow) : TransitionRow :=
  fun c => (row c).map fun tos => tos.image (n + ·)

/-- Every letter of a class that has no entry gets that of the class's key. -/
def expandRow (letters : LettersTbl) (row : TransitionRow) : TransitionRow :=
  fun c => match letters.inv c with
    | some k => (row c).or (row k)
    | none => row c

/-- `Import`: the states of `rhs` behind those of `m`, both tables with every
letter for itself. -/
def importFsm (m rhs : Fsm) : Fsm :=
  { m with
    transitions := m.transitions.map (expandRow m.letters) ++
      rhs.transitions.map fun row => expandRow rhs.letters (shiftRow m.size row)
    letters := Partition.empty }

@[simp] theorem size_importFsm (m rhs : Fsm) : (m.importFsm rhs).size = m.size + rhs.size := by
  simp only [size, importFsm, List.length_append, List.length_map]

theorem row_importFsm_left (m rhs : Fsm) {s : Nat} (hs : s < m.size) :
    (m.importFsm rhs).row s = expandRow m.letters (m.row s) := by
  unfold row importFsm
  have hlen : s < (m.transitions.map (expandRow m.letters)).length := by
    rw [List.length_map]; exact hs
  simp only
  rw [List.getElem?_append_left hlen, List.getElem?_map, List.getElem?_eq_getElem hs]
  rfl

theorem row_importFsm_right (m rhs : Fsm) {s : Nat} (hs : s < rhs.size) :
    (m.importFsm rhs).row (m.size + s) = expandRow rhs.letters (shiftRow m.size (rhs.row s)) := by
  unfold row importFsm
  have hlen : (m.transitions.map (expandRow m.letters)).length = m.size := List.length_map _
  simp only
  rw [List.getElem?_append_right (by rw [hlen]; exact Nat.le_add_right _ _), hlen,
    Nat.add_sub_cancel_left, List.getElem?_map, List.getElem?_eq_getElem hs]
  rfl

theorem klass_importFsm (m rhs : Fsm) (c : Letter) : (m.importFsm rhs).klass c = c := rfl

/-- A full row says of every letter what the sparse one says by its class. -/
theorem expandRow_apply {m : Fsm} (h : m.Valid) (s : Nat) (c : Letter) :
    expandRow m.letters (m.row s) c = m.row s (m.klass c) := by
  unfold expandRow klass
  cases hi : m.letters.inv c with
  | none => rfl
  | some k =>
    show (m.row s c).or (m.row s k) = m.row s k
    rcases h.repeated s c k hi with hr | hr
    · rw [hr, Option.none_or]
    · rw [hr, Option.or_self]

theorem expandRow_shiftRow (letters : LettersTbl) (n : Nat) (row : TransitionRow) :
    expandRow letters (shiftRow n row) = shiftRow n (expandRow letters row) := by
  funext c
  unfold expandRow shiftRow
  cases hi : letters.inv c with
  | none => simp only [hi]
  | some k =>
    simp only [hi]
    cases row c <;> rfl

theorem targets_importFsm_left {m : Fsm} (h : m.Valid) (rhs : Fsm) {s : Nat} (hs : s < m.size)
    (c : Letter) : (m.importFsm rhs).targets s c = m.targets s c := by
  unfold targets
  rw [klass_importFsm, row_importFsm_left m rhs hs, expandRow_apply h]

theorem mem_targets_importFsm_right (m : Fsm) {rhs : Fsm} (h : rhs.Valid) {s t : Nat}
    {c : Letter} : t ∈ (m.importFsm rhs).targets (m.size + s) c ↔
      ∃ u ∈ rhs.targets s c, t = m.size + u := by
  by_cases hs : s < rhs.size
  · unfold targets
    rw [klass_importFsm, row_importFsm_right m rhs hs, expandRow_shiftRow]
    unfold shiftRow
    rw [expandRow_apply h]
    cases rhs.row s (rhs.klass c) with
    | none => simp
    | some tos => simp [eq_comm]
  · have hle := Nat.le_of_not_lt hs
    rw [targets_of_size_le hle, targets_of_size_le (by rw [size_importFsm]; omega)]
    simp

theorem Valid.importFsm {m rhs : Fsm} (h : m.Valid) (h' : rhs.Valid) :
    (m.importFsm rhs).Valid where
  initial_lt := by rw [size_importFsm]; exact Nat.lt_of_lt_of_le h.initial_lt (Nat.le_add_right _ _)
  final_lt s hs := by
    rw [size_importFsm]
    exact Nat.lt_of_lt_of_le (h.final_lt s hs) (Nat.le_add_right _ _)
  entries_lt s c tos hr t ht := by
    have hmem : t ∈ (m.importFsm rhs).targets s c := by
      unfold targets
      rw [klass_importFsm, hr]
      exact ht
    rw [size_importFsm]
    by_cases hs : s < m.size
    · rw [targets_importFsm_left h rhs hs] at hmem
      exact Nat.lt_of_lt_of_le (h.targets_lt hmem) (Nat.le_add_right _ _)
    · obtain ⟨z, rfl⟩ := Nat.exists_eq_add_of_le (Nat.le_of_not_lt hs)
      obtain ⟨u, hu, rfl⟩ := (mem_targets_importFsm_right m h').mp hmem
      exact Nat.add_lt_add_left (h'.targets_lt hu) _
  letters := Or.inl rfl
  inv_epsilon := rfl
  repeated _ _ k hk := absurd hk.symm (Option.some_ne_none k)
  no_return ha s c hmem := by
    by_cases hs : s < m.size
    · rw [targets_importFsm_left h rhs hs] at hmem
      exact h.no_return ha s c hmem
    · obtain ⟨z, rfl⟩ := Nat.exists_eq_add_of_le (Nat.le_of_not_lt hs)
      obtain ⟨u, -, hu⟩ := (mem_targets_importFsm_right m h').mp hmem
      have hlt := h.initial_lt
      have hi : m.initial = m.size + u := hu
      omega
  silent ha c hc := (targets_importFsm_left h rhs h.initial_lt c).trans (h.silent ha c hc)
  not_final := h.not_final

/-! ## The parts of a joined automaton -/

/-- The states of `rhs` in an automaton that keeps their steps. -/
theorem acceptsFrom_right {rhs j : Fsm} (n : Nat) {P : Nat → Prop}
    (hP : ∀ s o t, P s → t ∈ rhs.nfa.step s o → P t)
    (hstep : ∀ s c t, P s → (t ∈ j.targets (n + s) c ↔ ∃ u ∈ rhs.targets s c, t = n + u))
    (hacc : ∀ s, P s → (n + s ∈ j.final ↔ s ∈ rhs.final)) {s : Nat} (hs : P s) :
    acceptsFrom j.nfa (n + s) = acceptsFrom rhs.nfa s := by
  refine acceptsFrom_image hP ?_ hacc hs
  intro s o hs
  ext t
  rw [mem_step, hstep s _ t hs]
  constructor
  · rintro ⟨u, hu, rfl⟩
    exact ⟨u, hu, rfl⟩
  · rintro ⟨u, hu, rfl⟩
    exact ⟨u, hu, rfl⟩

/-- The states of `m` in an automaton that keeps their steps. -/
theorem acceptsFrom_left {m j : Fsm} {P : Nat → Prop}
    (hP : ∀ s o t, P s → t ∈ m.nfa.step s o → P t)
    (hstep : ∀ s c t, P s → (t ∈ j.targets s c ↔ t ∈ m.targets s c))
    (hacc : ∀ s, P s → (s ∈ j.final ↔ s ∈ m.final)) {s : Nat} (hs : P s) :
    acceptsFrom j.nfa s = acceptsFrom m.nfa s := by
  refine acceptsFrom_image (f := id) hP ?_ hacc hs
  intro s o hs
  rw [Set.image_id]
  ext t
  exact hstep s _ t hs

theorem Valid.closed {m : Fsm} (h : m.Valid) (s : Nat) (o : Option Input) (t : Nat)
    (ht : t ∈ m.nfa.step s o) : t < m.size := h.targets_lt ht

/-- An automaton whose final states have exits besides their own steps accepts
a word of the original and one that leaves by an exit. -/
theorem lang_of_exits {m j : Fsm} (h : m.Valid) {E : Option Input → Nat → Prop}
    (hinitial : j.initial = m.initial)
    (hstep : ∀ s o t, s < m.size → (t ∈ j.targets s (label o) ↔
      t ∈ m.targets s (label o) ∨ (s ∈ m.final ∧ E o t)))
    (hacc : ∀ s, s < m.size → s ∉ j.final) :
    j.lang = m.lang * departures j.nfa E := by
  rw [lang_eq, lang_eq, hinitial]
  refine acceptsFrom_exits (P := (· < m.size)) (f := id) ?_ ?_ hacc h.initial_lt
  · intro s o t _ ht
    exact h.closed s o t ht
  · intro s o t hs
    rw [Set.image_id]
    exact hstep s o t hs

/-! ## Letters -/

/-- A new final state that every final state reaches by any of the letters. -/
def appendOneOf (m : Fsm) (letters : List Letter) : Fsm :=
  let e := m.size
  let j := letters.foldl (fun j c => j.connectFinal e c) (m.grow 1)
  { j with final := {e}, determined := false }

/-- `Append` of a character, and `AppendSpecial`. -/
def append (m : Fsm) (c : Letter) : Fsm := m.appendOneOf [c]

section AppendOneOf

variable {m : Fsm}

/-- What a run of `ConnectFinal` to one state leaves as it is, and what it adds. -/
theorem connectFinals_spec (letters : List Letter) (j : Fsm) (t : Nat)
    (hfree : ∀ c, j.Free c) :
    let j' := letters.foldl (fun j c => j.connectFinal t c) j
    j'.size = j.size ∧ j'.initial = j.initial ∧ j'.final = j.final ∧ j'.letters = j.letters ∧
      ∀ s d u, s < j.size →
        (u ∈ j'.targets s d ↔ u ∈ j.targets s d ∨ (s ∈ j.final ∧ d ∈ letters ∧ u = t)) := by
  induction letters generalizing j with
  | nil =>
    refine ⟨rfl, rfl, rfl, rfl, fun s d u _ => ?_⟩
    simp only [List.foldl_nil, List.not_mem_nil, false_and, and_false, or_false]
  | cons c letters ih =>
    obtain ⟨hsize, hinitial, hfinal, hletters, hmem⟩ := ih (j.connectFinal t c) hfree
    refine ⟨hsize.trans (size_connectWhere _ _ _ _), hinitial, hfinal, hletters, ?_⟩
    intro s d u hs
    have hs' : s < (j.connectFinal t c).size := by
      rw [connectFinal, size_connectWhere]; exact hs
    have hone := mem_targets_connectWhere (P := fun s => s ∈ j.final) (t := t) (u := u)
      (hfree c) hs (d := d)
    rw [decide_eq_true_eq] at hone
    show u ∈ (letters.foldl _ (j.connectFinal t c)).targets s d ↔ _
    rw [hmem s d u hs', connectFinal, hone]
    show (_ ∨ _) ∨ (s ∈ j.final ∧ _) ↔ _
    rw [List.mem_cons]
    tauto

theorem Valid.connectFinals (letters : List Letter) {j : Fsm} (h : j.Valid) {t : Nat}
    (ht : t < j.size) (hfree : ∀ c, j.Free c) :
    (letters.foldl (fun j c => j.connectFinal t c) j).Valid := by
  induction letters generalizing j with
  | nil => exact h
  | cons c letters ih =>
    have ht' : t < (j.connectFinal t c).size := by rw [connectFinal, size_connectWhere]; exact ht
    exact ih (h.connectWhere _ ht (hfree c)) ht' hfree

theorem targets_grow (m : Fsm) (n s : Nat) (c : Letter) :
    (m.grow n).targets s c = m.targets s c := by
  unfold targets
  rw [row_grow]
  rfl

/-- The words of one of the letters. -/
def oneOf (letters : List Letter) : Language Input := {x | ∃ c : Input, c.1 ∈ letters ∧ x = [c]}

theorem connectFinals_isAlternative {letters : List Letter} (hl : letters ≠ []) (j : Fsm)
    (t : Nat) :
    (letters.foldl (fun j c => j.connectFinal t c) j).isAlternative = false := by
  induction letters generalizing j with
  | nil => exact absurd rfl hl
  | cons c letters ih =>
    by_cases hn : letters = []
    · subst hn
      rfl
    · exact ih hn _

theorem Valid.appendOneOf (h : m.Valid) (hm : m.letters = Partition.empty)
    {letters : List Letter} (hl : letters ≠ []) : (m.appendOneOf letters).Valid := by
  have hfree : ∀ c, (m.grow 1).Free c := free_of_letters_empty hm
  have he : m.size < (m.grow 1).size := by rw [size_grow]; exact Nat.lt_succ_self _
  obtain ⟨hsize, hinitial, -⟩ := connectFinals_spec letters (m.grow 1) m.size hfree
  have hv := (h.grow 1).connectFinals letters he hfree
  refine hv.withEnds (connectFinals_isAlternative hl _ _) hv.initial_lt (fun s hs => ?_) false
  rw [Finset.mem_singleton.mp hs, hsize]
  exact he

theorem lang_appendOneOf (h : m.Valid) (hm : m.letters = Partition.empty) {letters : List Letter}
    (hl : epsilon ∉ letters) : (m.appendOneOf letters).lang = m.lang * oneOf letters := by
  have hfree : ∀ c, (m.grow 1).Free c := free_of_letters_empty hm
  obtain ⟨hsize, hinitial, -, -, hmem⟩ := connectFinals_spec letters (m.grow 1) m.size hfree
  set j := m.appendOneOf letters with hj
  have hend : m.size ∉ m.final := fun hf => Nat.lt_irrefl _ (h.final_lt _ hf)
  have hstep : ∀ s d t, s < m.size + 1 → (t ∈ j.targets s d ↔
      t ∈ m.targets s d ∨ (s ∈ m.final ∧ d ∈ letters ∧ t = m.size)) := by
    intro s d t hs
    rw [← targets_grow m 1]
    exact hmem s d t (by rw [size_grow]; exact hs)
  rw [lang_of_exits (j := j) h (E := fun o t => label o ∈ letters ∧ t = m.size) hinitial ?_ ?_]
  · congr 1
    have hsink : acceptsFrom j.nfa m.size = 1 := by
      refine acceptsFrom_sink (fun o => ?_) (Finset.mem_singleton_self m.size)
      refine Set.eq_empty_of_forall_notMem fun t ht => ?_
      rw [mem_step, hstep _ _ _ (Nat.lt_succ_self _), targets_of_size_le (Nat.le_refl _)] at ht
      rcases ht with ht | ⟨ht, -⟩
      · exact absurd ht (Finset.notMem_empty t)
      · exact hend ht
    ext x
    constructor
    · rintro ⟨o, t, y, rfl, ⟨ho, rfl⟩, hy⟩
      rw [hsink, Language.mem_one] at hy
      subst hy
      cases o with
      | none => exact absurd ho hl
      | some c => exact ⟨c, ho, rfl⟩
    · rintro ⟨c, hc, rfl⟩
      exact ⟨some c, m.size, [], rfl, ⟨hc, rfl⟩, by rw [hsink]; exact Language.nil_mem_one⟩
  · intro s o t hs
    exact hstep s _ t (Nat.lt_succ_of_lt hs)
  · intro s hs hf
    exact Nat.ne_of_lt hs (Finset.mem_singleton.mp hf)

end AppendOneOf

/-! ## Concatenation -/

/-- The steps of `row` besides those of `r`. -/
def mergeRow (r row : TransitionRow) : TransitionRow :=
  fun c => match row c with
    | none => r c
    | some tos => if tos = ∅ then r c else some ((r c).getD ∅ ∪ tos)

/-- `operator +=` -/
def concatenate (m rhs : Fsm) : Fsm :=
  let j := m.importFsm rhs
  let row := j.row (m.size + rhs.initial)
  { j with
    transitions := j.transitions.mapIdx fun s r => if s ∈ j.final then mergeRow r row else r
    final := rhs.final.image (m.size + ·)
    determined := false
    isAlternative := false }

theorem mem_mergeRow {r row : TransitionRow} {c : Letter} {t : Nat} :
    t ∈ (mergeRow r row c).getD ∅ ↔ t ∈ (r c).getD ∅ ∨ t ∈ (row c).getD ∅ := by
  unfold mergeRow
  cases row c with
  | none => simp
  | some tos =>
    show t ∈ (if tos = ∅ then r c else some ((r c).getD ∅ ∪ tos)).getD ∅ ↔ _
    split
    · rename_i he
      simp [he]
    · simp

section Concatenate

variable {m rhs : Fsm}

@[simp] theorem size_concatenate (m rhs : Fsm) :
    (m.concatenate rhs).size = m.size + rhs.size := by
  rw [← size_importFsm]
  simp only [size, concatenate, List.length_mapIdx]

theorem mem_targets_concatenate (m rhs : Fsm) {s t : Nat} {c : Letter} :
    t ∈ (m.concatenate rhs).targets s c ↔ t ∈ (m.importFsm rhs).targets s c ∨
      (s < m.size + rhs.size ∧ s ∈ m.final ∧
        t ∈ (m.importFsm rhs).targets (m.size + rhs.initial) c) := by
  have hklass : ∀ c, (m.concatenate rhs).klass c = c := fun _ => rfl
  by_cases hs : s < m.size + rhs.size
  · have hrow : (m.concatenate rhs).row s = if s ∈ m.final then
        mergeRow ((m.importFsm rhs).row s) ((m.importFsm rhs).row (m.size + rhs.initial))
        else (m.importFsm rhs).row s := by
      have hs' : s < (m.importFsm rhs).transitions.length := by
        show s < (m.importFsm rhs).size
        rw [size_importFsm]
        exact hs
      unfold concatenate row
      simp only [List.getElem?_mapIdx]
      rw [List.getElem?_eq_getElem hs']
      rfl
    unfold targets
    rw [hklass, klass_importFsm, hrow]
    split
    · rename_i hf
      rw [mem_mergeRow]
      simp only [hs, hf, true_and]
    · rename_i hf
      simp only [hf, false_and, and_false, or_false]
  · have hle := Nat.le_of_not_lt hs
    rw [targets_of_size_le (by rw [size_concatenate]; exact hle),
      targets_of_size_le (by rw [size_importFsm]; exact hle)]
    simp only [hs, false_and, or_false]

theorem mem_targets_concatenate_left (h : m.Valid) (h' : rhs.Valid) {s t : Nat} {c : Letter}
    (hs : s < m.size) : t ∈ (m.concatenate rhs).targets s c ↔ t ∈ m.targets s c ∨
      (s ∈ m.final ∧ ∃ u ∈ rhs.targets rhs.initial c, t = m.size + u) := by
  rw [mem_targets_concatenate, targets_importFsm_left h rhs hs, mem_targets_importFsm_right m h']
  simp only [Nat.lt_add_right rhs.size hs, true_and]

theorem mem_targets_concatenate_right (h : m.Valid) (h' : rhs.Valid) {s t : Nat} {c : Letter} :
    t ∈ (m.concatenate rhs).targets (m.size + s) c ↔
      ∃ u ∈ rhs.targets s c, t = m.size + u := by
  have hf : m.size + s ∉ m.final := fun hf => by
    have hlt := h.final_lt _ hf
    omega
  rw [mem_targets_concatenate, mem_targets_importFsm_right m h']
  simp only [hf, false_and, and_false, or_false]

theorem Valid.concatenate (h : m.Valid) (h' : rhs.Valid) : (m.concatenate rhs).Valid where
  initial_lt := by
    rw [size_concatenate]
    exact Nat.lt_of_lt_of_le h.initial_lt (Nat.le_add_right _ _)
  final_lt s hs := by
    obtain ⟨u, hu, rfl⟩ := Finset.mem_image.mp hs
    rw [size_concatenate]
    exact Nat.add_lt_add_left (h'.final_lt u hu) _
  entries_lt s c tos hr t ht := by
    have hmem : t ∈ (m.concatenate rhs).targets s c := by
      unfold targets
      rw [show (m.concatenate rhs).klass c = c from rfl, hr]
      exact ht
    have hi := h.importFsm h'
    rw [size_concatenate, ← size_importFsm]
    rcases (mem_targets_concatenate m rhs).mp hmem with hmem | ⟨-, -, hmem⟩
    · exact hi.targets_lt hmem
    · exact hi.targets_lt hmem
  letters := Or.inl rfl
  inv_epsilon := rfl
  repeated _ _ k hk := absurd hk.symm (Option.some_ne_none k)
  no_return ha := absurd ha Bool.false_ne_true
  silent ha := absurd ha Bool.false_ne_true
  not_final ha := absurd ha Bool.false_ne_true

/-- What an automaton accepts by taking a step first. -/
def departing (m : Fsm) : Language Input :=
  departures m.nfa fun o t => t ∈ m.nfa.step m.initial o

theorem lang_eq_departing (h : m.initial ∉ m.final) : m.lang = m.departing := by
  rw [lang_eq]
  ext x
  rw [mem_acceptsFrom]
  constructor
  · rintro (⟨-, hi⟩ | hx)
    · exact absurd hi h
    · exact hx
  · exact Or.inr

theorem lang_concatenate (h : m.Valid) (h' : rhs.Valid) :
    (m.concatenate rhs).lang = m.lang * rhs.departing := by
  have hright : ∀ s, acceptsFrom (m.concatenate rhs).nfa (m.size + s) = acceptsFrom rhs.nfa s := by
    intro s
    refine acceptsFrom_right m.size (P := fun _ => True) (fun _ _ _ _ _ => trivial) ?_ ?_ trivial
    · intro s c t _
      exact mem_targets_concatenate_right h h'
    · intro s _
      show m.size + s ∈ rhs.final.image (m.size + ·) ↔ s ∈ rhs.final
      simp
  let E : Option Input → Nat → Prop :=
    fun o t => ∃ u ∈ rhs.targets rhs.initial (label o), t = m.size + u
  have hlang : (m.concatenate rhs).lang = m.lang * departures (m.concatenate rhs).nfa E := by
    refine lang_of_exits h rfl ?_ ?_
    · intro s o t hs
      exact mem_targets_concatenate_left h h' hs
    · intro s hs hf
      obtain ⟨u, -, hu⟩ := Finset.mem_image.mp hf
      have : m.size + u = s := hu
      omega
  have hexits : departures (m.concatenate rhs).nfa E = rhs.departing := by
    ext x
    constructor
    · rintro ⟨o, t, y, rfl, ⟨u, hu, rfl⟩, hy⟩
      rw [hright] at hy
      exact ⟨o, u, y, rfl, hu, hy⟩
    · rintro ⟨o, u, y, rfl, hu, hy⟩
      exact ⟨o, m.size + u, y, rfl, ⟨u, hu, rfl⟩, by rw [hright]; exact hy⟩
  rw [hlang, hexits]

theorem not_final_concatenate (h : m.Valid) :
    (m.concatenate rhs).initial ∉ (m.concatenate rhs).final := by
  intro hf
  obtain ⟨u, -, hu⟩ := Finset.mem_image.mp hf
  have hlt := h.initial_lt
  have : m.size + u = m.initial := hu
  omega

end Concatenate

end Fsm
end Pire
end MediaServer
