/-
The automata that regular expressions are compiled to, and how their transition
tables are changed.

A table may be sparse: then only one letter of each class in `letters` need have
entries, and `targets` is where a state goes on a letter under that reading.
`Fsm.Valid` is what the operations keep, and `lang` is the language of an
automaton, taken by Mathlib's `εNFA`.

The alphabet is that of a platform with pointers of eight bytes.
-/
import MediaServer.Automata.Paths
import MediaServer.Pire.Partition
import Mathlib.Data.Finset.Image
import Mathlib.Order.Fin.Basic

namespace MediaServer
namespace Pire

/-! ## Letters -/

/-- Bytes, then ε, the marks for the two ends of a text, and padding. -/
abbrev Letter := Fin 264

def epsilon : Letter := 257

def beginMark : Letter := 258

def endMark : Letter := 259

/-- What a word is made of: every letter but ε. -/
abbrev Input := { c : Letter // c ≠ epsilon }

def byte (b : UInt8) : Input :=
  ⟨⟨b.toNat, Nat.lt_trans b.toNat_lt (by decide)⟩, fun h => by
    have hv := congrArg Fin.val h
    have hb := b.toNat_lt
    simp only [epsilon] at hv
    have : ((257 : Fin 264) : Nat) = 257 := rfl
    omega⟩

def beginInput : Input := ⟨beginMark, by decide⟩

def endInput : Input := ⟨endMark, by decide⟩

/-- The letter of a step of the automaton. -/
def label : Option Input → Letter
  | none => epsilon
  | some c => c.1

theorem exists_label (c : Letter) : ∃ o, label o = c := by
  by_cases h : c = epsilon
  · exact ⟨none, h.symm⟩
  · exact ⟨some ⟨c, h⟩, rfl⟩

theorem label_inj {o o' : Option Input} (h : label o = label o') : o = o' := by
  cases o with
  | none =>
    cases o' with
    | none => rfl
    | some c => exact absurd h.symm c.2
  | some c =>
    cases o' with
    | none => exact absurd h c.2
    | some d => exact congrArg some (Subtype.ext h)

/-! ## Automata -/

abbrev StatesSet := Finset Nat

/-- A row of the table: a map from letters to sets of states. -/
abbrev TransitionRow := Letter → Option StatesSet

abbrev LettersTbl := Partition Letter

/-- The outputs and the tags of the original stay empty in this program and are
left out. -/
structure Fsm where
  transitions : List TransitionRow
  initial : Nat
  final : Finset Nat
  letters : LettersTbl
  sparsed : Bool
  determined : Bool
  isAlternative : Bool

namespace Fsm

def emptyRow : TransitionRow := fun _ => none

/-- The automaton of the empty word. -/
def new : Fsm where
  transitions := [emptyRow]
  initial := 0
  final := {0}
  letters := Partition.empty
  sparsed := false
  determined := false
  isAlternative := false

def makeFalse : Fsm := { new with final := ∅ }

def size (m : Fsm) : Nat := m.transitions.length

def row (m : Fsm) (s : Nat) : TransitionRow := m.transitions[s]?.getD emptyRow

def translate (m : Fsm) (c : Letter) : Letter :=
  if !m.sparsed || c = epsilon then c else m.letters.representative c

def destinations (m : Fsm) (s : Nat) (c : Letter) : StatesSet := (m.row s (m.translate c)).getD ∅

/-- `Resize` to `n` states more. -/
def grow (m : Fsm) (n : Nat) : Fsm :=
  { m with transitions := m.transitions ++ List.replicate n emptyRow }

def clearHints (m : Fsm) : Fsm := { m with isAlternative := false }

def addTarget (row : TransitionRow) (c : Letter) (t : Nat) : TransitionRow :=
  Function.update row c (some (insert t ((row c).getD ∅)))

/-- `Connect` for every state of `P`. -/
def connectWhere (m : Fsm) (P : Nat → Bool) (t : Nat) (c : Letter) : Fsm :=
  { m with
    transitions := m.transitions.mapIdx fun s row => if P s then addTarget row c t else row
    isAlternative := false }

def connect (m : Fsm) (s t : Nat) (c : Letter) : Fsm := m.connectWhere (fun s' => s' = s) t c

def connectFinal (m : Fsm) (t : Nat) (c : Letter) : Fsm :=
  m.connectWhere (fun s => s ∈ m.final) t c

def disconnect (m : Fsm) (s t : Nat) (c : Letter) : Fsm :=
  { m with
    transitions := m.transitions.mapIdx fun s' row =>
      if s' = s then Function.update row c ((row c).map fun tos => tos.erase t) else row
    isAlternative := false }

/-! ## What an automaton means -/

/-- The letter whose entries hold for `c`. -/
def klass (m : Fsm) (c : Letter) : Letter := (m.letters.inv c).getD c

/-- Where `s` goes on `c`. -/
def targets (m : Fsm) (s : Nat) (c : Letter) : StatesSet := (m.row s (m.klass c)).getD ∅

def nfa (m : Fsm) : εNFA Input Nat where
  step s o := { t | t ∈ m.targets s (label o) }
  start := {m.initial}
  accept := { s | s ∈ m.final }

def lang (m : Fsm) : Language Input := m.nfa.accepts

theorem lang_eq (m : Fsm) : m.lang = Automata.acceptsFrom m.nfa m.initial :=
  Automata.accepts_eq_acceptsFrom rfl

theorem mem_step {m : Fsm} {s t : Nat} {o : Option Input} :
    t ∈ m.nfa.step s o ↔ t ∈ m.targets s (label o) := Iff.rfl

theorem mem_accept {m : Fsm} {s : Nat} : s ∈ m.nfa.accept ↔ s ∈ m.final := Iff.rfl

/-- A table of letters is empty, or it holds every letter but ε. -/
def LettersOk (p : LettersTbl) : Prop :=
  p = Partition.empty ∨ ∃ eq, Partition.Sound eq (fun c => c ≠ epsilon) [] p

/-- What the operations on automata keep. -/
structure Valid (m : Fsm) : Prop where
  initial_lt : m.initial < m.size
  final_lt : ∀ s ∈ m.final, s < m.size
  entries_lt : ∀ s c tos, m.row s c = some tos → ∀ t ∈ tos, t < m.size
  letters : LettersOk m.letters
  inv_epsilon : m.letters.inv epsilon = none
  /-- An entry for a letter that is not the key of its class repeats that of the key. -/
  repeated : ∀ s c k, m.letters.inv c = some k → m.row s c = none ∨ m.row s c = m.row s k
  /-- The start of alternatives has no way back to it, and leaves by ε only. -/
  no_return : m.isAlternative = true → ∀ s c, m.initial ∉ m.targets s c
  silent : m.isAlternative = true → ∀ c, c ≠ epsilon → m.targets m.initial c = ∅
  not_final : m.isAlternative = true → m.initial ∉ m.final

/-! ## Rows -/

theorem row_of_size_le {m : Fsm} {s : Nat} (h : m.size ≤ s) : m.row s = emptyRow := by
  unfold row
  rw [List.getElem?_eq_none h, Option.getD_none]

@[simp] theorem size_grow (m : Fsm) (n : Nat) : (m.grow n).size = m.size + n := by
  simp only [size, grow, List.length_append, List.length_replicate]

@[simp] theorem row_grow (m : Fsm) (n s : Nat) : (m.grow n).row s = m.row s := by
  unfold row grow
  simp only [List.getElem?_append, List.getElem?_replicate]
  split
  · rfl
  · rename_i h
    rw [List.getElem?_eq_none (Nat.le_of_not_lt h), Option.getD_none]
    split <;> rfl

@[simp] theorem size_connectWhere (m : Fsm) (P : Nat → Bool) (t : Nat) (c : Letter) :
    (m.connectWhere P t c).size = m.size := by
  simp only [size, connectWhere, List.length_mapIdx]

theorem row_connectWhere (m : Fsm) (P : Nat → Bool) (t : Nat) (c : Letter) {s : Nat}
    (hs : s < m.size) :
    (m.connectWhere P t c).row s = if P s then addTarget (m.row s) c t else m.row s := by
  unfold row connectWhere
  simp only [List.getElem?_mapIdx]
  rw [List.getElem?_eq_getElem hs]
  rfl

theorem mem_addTarget {row : TransitionRow} {c d : Letter} {t u : Nat} :
    u ∈ (addTarget row c t d).getD ∅ ↔ u ∈ (row d).getD ∅ ∨ (d = c ∧ u = t) := by
  unfold addTarget
  by_cases hd : d = c
  · subst hd
    rw [Function.update_self, Option.getD_some, Finset.mem_insert]
    tauto
  · rw [Function.update_of_ne hd]
    tauto

/-- A letter that stands for itself alone. -/
def Free (m : Fsm) (c : Letter) : Prop := ∀ d, m.klass d = c ↔ d = c

theorem mem_targets_connectWhere {m : Fsm} {P : Nat → Bool} {t : Nat} {c : Letter}
    (hc : m.Free c) {s u : Nat} (hs : s < m.size) {d : Letter} :
    u ∈ (m.connectWhere P t c).targets s d ↔
      u ∈ m.targets s d ∨ (P s = true ∧ d = c ∧ u = t) := by
  have hklass : (m.connectWhere P t c).klass d = m.klass d := rfl
  unfold targets
  rw [hklass, row_connectWhere m P t c hs]
  split
  · rename_i hP
    rw [mem_addTarget, hc d]
    tauto
  · rename_i hP
    tauto

theorem targets_of_size_le {m : Fsm} {s : Nat} (h : m.size ≤ s) (c : Letter) :
    m.targets s c = ∅ := by
  unfold targets
  rw [row_of_size_le h]
  rfl

theorem LettersOk.key {p : LettersTbl} (h : LettersOk p) {c k : Letter} (hk : p.inv c = some k)
    (hc : c ≠ epsilon) : p.inv k = some k ∧ k ≠ epsilon := by
  rcases h with rfl | ⟨eq, h⟩
  · exact absurd hk.symm (Option.some_ne_none k)
  · obtain ⟨K, hK, -, hi⟩ := h.exists_klass hc
    obtain rfl : K.key = k := Option.some.inj (hi.symm.trans hk)
    exact ⟨h.inv_key hK, (h.cover _).mpr ⟨K, hK, h.key_mem hK⟩⟩

theorem free_of_letters_empty {m : Fsm} (h : m.letters = Partition.empty) (c : Letter) :
    m.Free c := by
  intro d
  unfold klass
  rw [h]
  rfl

namespace Valid

variable {m : Fsm}

theorem free_epsilon (h : m.Valid) : m.Free epsilon := by
  intro d
  unfold klass
  constructor
  · intro hd
    by_contra hne
    cases hi : m.letters.inv d with
    | none =>
      rw [hi, Option.getD_none] at hd
      exact hne hd
    | some k =>
      rw [hi, Option.getD_some] at hd
      exact (h.letters.key hi hne).2 hd
  · rintro rfl
    rw [h.inv_epsilon, Option.getD_none]

theorem targets_lt (h : m.Valid) {s t : Nat} {c : Letter} (ht : t ∈ m.targets s c) :
    t < m.size := by
  unfold targets at ht
  cases hr : m.row s (m.klass c) with
  | none =>
    rw [hr] at ht
    exact absurd ht (Finset.notMem_empty t)
  | some tos =>
    rw [hr] at ht
    exact h.entries_lt s _ tos hr t ht

theorem grow (h : m.Valid) (n : Nat) : (m.grow n).Valid where
  initial_lt := by rw [size_grow]; exact Nat.lt_of_lt_of_le h.initial_lt (Nat.le_add_right _ _)
  final_lt s hs := by
    rw [size_grow]
    exact Nat.lt_of_lt_of_le (h.final_lt s hs) (Nat.le_add_right _ _)
  entries_lt s c tos hr t ht := by
    rw [row_grow] at hr
    rw [size_grow]
    exact Nat.lt_of_lt_of_le (h.entries_lt s c tos hr t ht) (Nat.le_add_right _ _)
  letters := h.letters
  inv_epsilon := h.inv_epsilon
  repeated s c k hk := by
    rw [row_grow]
    exact h.repeated s c k hk
  no_return ha s c := by
    have hr : (m.grow n).targets s c = m.targets s c := by unfold targets; rw [row_grow]; rfl
    rw [hr]
    exact h.no_return ha s c
  silent ha c hc := by
    have hr : (m.grow n).targets m.initial c = m.targets m.initial c := by
      unfold targets; rw [row_grow]; rfl
    exact hr.trans (h.silent ha c hc)
  not_final := h.not_final

theorem connectWhere (h : m.Valid) (P : Nat → Bool) {t : Nat} {c : Letter} (ht : t < m.size)
    (hc : m.Free c) : (m.connectWhere P t c).Valid where
  initial_lt := by rw [size_connectWhere]; exact h.initial_lt
  final_lt s hs := by rw [size_connectWhere]; exact h.final_lt s hs
  entries_lt s d tos hr u hu := by
    rw [size_connectWhere]
    by_cases hs : s < m.size
    · have hmem : u ∈ ((m.connectWhere P t c).row s d).getD ∅ := by rw [hr]; exact hu
      have hold : ∀ {v}, v ∈ (m.row s d).getD ∅ → v < m.size := by
        intro v hv
        cases hd : m.row s d with
        | none => rw [hd] at hv; exact absurd hv (Finset.notMem_empty v)
        | some old => rw [hd] at hv; exact h.entries_lt s d old hd v hv
      rw [row_connectWhere m P t c hs] at hmem
      split at hmem
      · rcases mem_addTarget.mp hmem with hv | ⟨-, rfl⟩
        · exact hold hv
        · exact ht
      · exact hold hmem
    · rw [row_of_size_le (by rw [size_connectWhere]; exact Nat.le_of_not_lt hs)] at hr
      exact absurd hr.symm (Option.some_ne_none tos)
  letters := h.letters
  inv_epsilon := h.inv_epsilon
  repeated s d k hk := by
    by_cases hs : s < m.size
    · rw [row_connectWhere m P t c hs]
      split
      · unfold addTarget
        have hkd : m.klass d = k := by
          show (m.letters.inv d).getD d = k
          rw [show m.letters.inv d = some k from hk, Option.getD_some]
        by_cases hd : d = c
        · -- a letter of its own is the key of its class
          have hkc : k = d := by rw [← hkd, (hc d).mpr hd, hd]
          rw [hkc]
          exact Or.inr rfl
        · have hk' : k ≠ c := fun hk' => hd ((hc d).mp (hkd.trans hk'))
          rw [Function.update_of_ne hd, Function.update_of_ne hk']
          exact h.repeated s d k hk
      · exact h.repeated s d k hk
    · rw [row_of_size_le (by rw [size_connectWhere]; exact Nat.le_of_not_lt hs)]
      exact Or.inl rfl
  no_return ha := absurd ha Bool.false_ne_true
  silent ha := absurd ha Bool.false_ne_true
  not_final ha := absurd ha Bool.false_ne_true

/-- Other ends may be chosen for an automaton that is no alternative. -/
theorem withEnds (h : m.Valid) (ha : m.isAlternative = false) {initial : Nat} {final : Finset Nat}
    (hi : initial < m.size) (hf : ∀ s ∈ final, s < m.size) (d : Bool) :
    Valid { m with initial := initial, final := final, determined := d } where
  initial_lt := hi
  final_lt := hf
  entries_lt := h.entries_lt
  letters := h.letters
  inv_epsilon := h.inv_epsilon
  repeated := h.repeated
  no_return ha' := absurd (ha'.symm.trans ha) (Bool.false_ne_true ∘ Eq.symm)
  silent ha' := absurd (ha'.symm.trans ha) (Bool.false_ne_true ∘ Eq.symm)
  not_final ha' := absurd (ha'.symm.trans ha) (Bool.false_ne_true ∘ Eq.symm)

end Valid

theorem row_new (s : Nat) : new.row s = emptyRow := by
  unfold row new
  cases s with
  | zero => rfl
  | succ s => rfl

theorem valid_new : new.Valid where
  initial_lt := Nat.zero_lt_one
  final_lt s hs := by rw [Finset.mem_singleton.mp hs]; exact Nat.zero_lt_one
  entries_lt s c tos hr := by
    rw [row_new] at hr
    exact absurd hr.symm (Option.some_ne_none tos)
  letters := Or.inl rfl
  inv_epsilon := rfl
  repeated _ _ k hk := absurd hk.symm (Option.some_ne_none k)
  no_return ha := absurd ha Bool.false_ne_true
  silent ha := absurd ha Bool.false_ne_true
  not_final ha := absurd ha Bool.false_ne_true

theorem valid_makeFalse : makeFalse.Valid :=
  valid_new.withEnds rfl Nat.zero_lt_one (fun s hs => absurd hs (Finset.notMem_empty s)) false

theorem no_step_new (s : Nat) (o : Option Input) : new.nfa.step s o = ∅ := by
  refine Set.eq_empty_of_forall_notMem fun t ht => ?_
  rw [mem_step] at ht
  unfold targets at ht
  rw [row_new] at ht
  exact absurd ht (Finset.notMem_empty t)

theorem lang_new : new.lang = 1 := by
  rw [lang_eq]
  ext x
  rw [Automata.acceptsFrom_of_no_step (no_step_new _), Language.mem_one]
  exact and_iff_left (Finset.mem_singleton_self 0)

theorem lang_makeFalse : makeFalse.lang = 0 := by
  rw [lang_eq]
  ext x
  have hstep : ∀ o, makeFalse.nfa.step 0 o = ∅ := no_step_new 0
  rw [show makeFalse.initial = 0 from rfl, Automata.acceptsFrom_of_no_step hstep]
  constructor
  · rintro ⟨-, h⟩
    exact absurd h (Finset.notMem_empty 0)
  · intro h
    exact absurd h (Language.notMem_zero x)

end Fsm

end Pire
end MediaServer
