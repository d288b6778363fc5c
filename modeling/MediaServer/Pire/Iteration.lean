/-
Iteration and repetition of an automaton, and the anything that `Surround` puts
before and behind it.

`lang_iterate` and `lang_surround` hold of every automaton.  A repetition is a
run of concatenations, so it repeats what the automaton accepts by taking a step
(`lang_times`).
-/
import MediaServer.Pire.Operations

namespace MediaServer
namespace Pire
namespace Fsm

open Automata Computability

/-! ## Single steps by ε -/

/-- `Connect` by ε, and what it does to the states that there are. -/
theorem mem_targets_connect {m : Fsm} (h : m.Valid) {a b : Nat} {s t : Nat} (hs : s < m.size)
    {c : Letter} : t ∈ (m.connect a b epsilon).targets s c ↔
      t ∈ m.targets s c ∨ (s = a ∧ c = epsilon ∧ t = b) := by
  unfold connect
  rw [mem_targets_connectWhere h.free_epsilon hs, decide_eq_true_eq]

theorem mem_targets_connectFinal {m : Fsm} (h : m.Valid) {b : Nat} {s t : Nat} (hs : s < m.size)
    {c : Letter} : t ∈ (m.connectFinal b epsilon).targets s c ↔
      t ∈ m.targets s c ∨ (s ∈ m.final ∧ c = epsilon ∧ t = b) := by
  unfold connectFinal
  rw [mem_targets_connectWhere h.free_epsilon hs, decide_eq_true_eq]

theorem Valid.connect {m : Fsm} (h : m.Valid) (a : Nat) {b : Nat} (hb : b < m.size) :
    (m.connect a b epsilon).Valid :=
  h.connectWhere _ hb h.free_epsilon

theorem Valid.connectFinal {m : Fsm} (h : m.Valid) {b : Nat} (hb : b < m.size) :
    (m.connectFinal b epsilon).Valid :=
  h.connectWhere _ hb h.free_epsilon

@[simp] theorem size_connect (m : Fsm) (a b : Nat) (c : Letter) :
    (m.connect a b c).size = m.size := size_connectWhere _ _ _ _

@[simp] theorem size_connectFinal (m : Fsm) (b : Nat) (c : Letter) :
    (m.connectFinal b c).size = m.size := size_connectWhere _ _ _ _

theorem label_eq_epsilon {o : Option Input} : label o = epsilon ↔ o = none := by
  cases o with
  | none => exact iff_of_true rfl rfl
  | some c => exact iff_of_false c.2 (Option.some_ne_none c)

/-! ## Iteration -/

/-- `Iterate`: a new start and a new end, and from every final state a way back
to the old start and one to the end. -/
def iterate (m : Fsm) : Fsm :=
  let j := m.grow 2
  let j := j.connect (j.size - 2) (j.size - 1) epsilon
  let j := j.connect (j.size - 2) j.initial epsilon
  let j := j.connectFinal j.initial epsilon
  let j := j.connectFinal (j.size - 1) epsilon
  { j with final := {j.size - 1}, initial := j.size - 2, determined := false }

section Iterate

variable {m : Fsm}

theorem iterate_eq (m : Fsm) : m.iterate =
    { ((((m.grow 2).connect m.size (m.size + 1) epsilon).connect m.size m.initial
        epsilon).connectFinal m.initial epsilon).connectFinal (m.size + 1) epsilon with
      final := {m.size + 1}, initial := m.size, determined := false } := by
  unfold iterate
  simp only [size_connect, size_connectFinal, size_grow]
  rfl

theorem valid_iterate_table (h : m.Valid) : ((m.grow 2).connect m.size (m.size + 1) epsilon).Valid ∧
    (((m.grow 2).connect m.size (m.size + 1) epsilon).connect m.size m.initial epsilon).Valid ∧
    ((((m.grow 2).connect m.size (m.size + 1) epsilon).connect m.size m.initial
        epsilon).connectFinal m.initial epsilon).Valid ∧
    (((((m.grow 2).connect m.size (m.size + 1) epsilon).connect m.size m.initial
        epsilon).connectFinal m.initial epsilon).connectFinal (m.size + 1) epsilon).Valid := by
  have hi := h.initial_lt
  have h1 := (h.grow 2).connect m.size (b := m.size + 1) (by rw [size_grow]; omega)
  have h2 := h1.connect m.size (b := m.initial) (by rw [size_connect, size_grow]; omega)
  have h3 := h2.connectFinal (b := m.initial) (by simp only [size_connect, size_grow]; omega)
  have h4 := h3.connectFinal (b := m.size + 1)
    (by simp only [size_connect, size_connectFinal, size_grow]; omega)
  exact ⟨h1, h2, h3, h4⟩

theorem Valid.iterate (h : m.Valid) : m.iterate.Valid := by
  obtain ⟨-, -, -, h4⟩ := valid_iterate_table h
  have hsize : (((((m.grow 2).connect m.size (m.size + 1) epsilon).connect m.size m.initial
      epsilon).connectFinal m.initial epsilon).connectFinal (m.size + 1) epsilon).size =
      m.size + 2 := by simp only [size_connect, size_connectFinal, size_grow]
  rw [iterate_eq]
  refine h4.withEnds rfl (by rw [hsize]; omega) (fun s hs => ?_) false
  rw [Finset.mem_singleton.mp hs, hsize]
  omega

/-- Everything that `Iterate` connects. -/
theorem mem_targets_iterate (h : m.Valid) {s t : Nat} (hs : s < m.size + 2) {c : Letter} :
    t ∈ m.iterate.targets s c ↔ t ∈ m.targets s c ∨
      (c = epsilon ∧ ((s = m.size ∧ (t = m.size + 1 ∨ t = m.initial)) ∨
        (s ∈ m.final ∧ (t = m.initial ∨ t = m.size + 1)))) := by
  obtain ⟨h1, h2, h3, -⟩ := valid_iterate_table h
  rw [iterate_eq]
  show t ∈ (Fsm.connectFinal _ _ _).targets s c ↔ _
  rw [mem_targets_connectFinal h3
      (by simp only [size_connect, size_connectFinal, size_grow]; omega),
    mem_targets_connectFinal h2 (by simp only [size_connect, size_grow]; omega),
    mem_targets_connect h1 (by simp only [size_connect, size_grow]; omega),
    mem_targets_connect (h.grow 2) (by rw [size_grow]; omega), targets_grow]
  show (((_ ∨ _) ∨ _) ∨ (s ∈ m.final ∧ _)) ∨ (s ∈ m.final ∧ _) ↔ _
  tauto

theorem lang_iterate (h : m.Valid) : m.iterate.lang = m.lang∗ := by
  have hi := h.initial_lt
  have hold : ∀ s, m.size ≤ s → s ∉ m.final ∧ ∀ c t, t ∉ m.targets s c := by
    intro s hs
    refine ⟨fun hf => absurd (h.final_lt s hf) (Nat.not_lt.mpr hs), fun c t ht => ?_⟩
    rw [targets_of_size_le hs] at ht
    exact absurd ht (Finset.notMem_empty t)
  have hfinal : ∀ s, s ∈ m.iterate.nfa.accept ↔ s = m.size + 1 := by
    intro s
    rw [iterate_eq]
    exact Finset.mem_singleton
  have hend : acceptsFrom m.iterate.nfa (m.size + 1) = 1 := by
    refine acceptsFrom_sink (fun o => ?_) ((hfinal _).mpr rfl)
    refine Set.eq_empty_of_forall_notMem fun t ht => ?_
    obtain ⟨hf, ht'⟩ := hold (m.size + 1) (Nat.le_succ _)
    rw [mem_step, mem_targets_iterate h (by omega)] at ht
    rcases ht with ht | ⟨-, ⟨hs, -⟩ | ⟨hs, -⟩⟩
    · exact ht' _ _ ht
    · omega
    · exact hf hs
  have hloop : acceptsFrom m.iterate.nfa m.initial = m.lang * m.lang∗ := by
    rw [lang_eq]
    refine acceptsFrom_loop (M := m.nfa) (P := (· < m.size)) (f := id) (z := m.size + 1)
      (fun s o t _ ht => h.closed s o t ht) ?_ ?_ hend hi
    · intro s o t hs
      rw [Set.image_id, id_eq, mem_step, mem_targets_iterate h (by omega), label_eq_epsilon]
      have hne : s ≠ m.size := Nat.ne_of_lt hs
      show _ ↔ t ∈ m.targets s (label o) ∨ (s ∈ m.final ∧ _)
      tauto
    · intro s hs hf
      have := (hfinal s).mp hf
      have : s < m.size := hs
      omega
  have hstart : ∀ o t, t ∈ m.iterate.nfa.step m.size o ↔
      o = none ∧ (t = m.size + 1 ∨ t = m.initial) := by
    intro o t
    obtain ⟨hf, ht'⟩ := hold m.size (Nat.le_refl _)
    rw [mem_step, mem_targets_iterate h (by omega), label_eq_epsilon]
    have := ht' (label o) t
    tauto
  rw [lang_eq, show m.iterate.initial = m.size by rw [iterate_eq]]
  ext x
  rw [acceptsFrom_alternatives hstart (by rw [hfinal]; omega),
    ← Language.one_add_self_mul_kstar_eq_kstar m.lang, Language.mem_add, ← hend, ← hloop]
  constructor
  · rintro ⟨t, rfl | rfl, hx⟩
    · exact Or.inl hx
    · exact Or.inr hx
  · rintro (hx | hx)
    · exact ⟨m.size + 1, Or.inl rfl, hx⟩
    · exact ⟨m.initial, Or.inr rfl, hx⟩

theorem not_final_iterate (m : Fsm) : m.iterate.initial ∉ m.iterate.final := by
  rw [iterate_eq]
  intro hf
  have : m.size = m.size + 1 := Finset.mem_singleton.mp hf
  omega

end Iterate

/-! ## Repetition -/

/-- `operator *` with a count. -/
def times (m : Fsm) : Nat → Fsm
  | 0 => new
  | count + 1 => (times m count).concatenate m

/-- `operator *=` with a `size_t`: nothing where memory runs out, as it does for `2 ^ 63`
copies of anything. -/
def multiply (m : Fsm) (count : Nat) : Option Fsm :=
  if count < 2 ^ 63 then some (m.times count) else none

section Times

variable {m : Fsm}

theorem Valid.times (h : m.Valid) (count : Nat) : (m.times count).Valid := by
  induction count with
  | zero => exact valid_new
  | succ count ih => exact ih.concatenate h

theorem lang_times (h : m.Valid) (count : Nat) : (m.times count).lang = m.departing ^ count := by
  induction count with
  | zero => rw [pow_zero]; exact lang_new
  | succ count ih =>
    rw [pow_succ, ← ih]
    exact lang_concatenate (h.times count) h

theorem not_final_times (h : m.Valid) {count : Nat} (hc : count ≠ 0) :
    (m.times count).initial ∉ (m.times count).final := by
  cases count with
  | zero => exact absurd rfl hc
  | succ count => exact not_final_concatenate (h.times count)

end Times

/-! ## Anything -/

/-- A new state that keeps itself on every letter. -/
def addLoop (m : Fsm) : Fsm :=
  { m with
    transitions := m.transitions ++ [fun _ => some {m.size}]
    isAlternative := false }

def prependAnything (m : Fsm) : Fsm :=
  let newstate := m.size
  let j := m.addLoop.connect newstate m.initial epsilon
  { j with initial := newstate, determined := false }

def appendAnything (m : Fsm) : Fsm :=
  let newstate := m.size
  let j := m.addLoop.connectFinal newstate epsilon
  { j with final := {newstate}, determined := false }

def surround (m : Fsm) : Fsm := m.prependAnything.appendAnything

section Anything

variable {m : Fsm}

@[simp] theorem size_addLoop (m : Fsm) : m.addLoop.size = m.size + 1 := by
  simp only [size, addLoop, List.length_append, List.length_singleton]

theorem row_addLoop (m : Fsm) {s : Nat} (hs : s < m.size) : m.addLoop.row s = m.row s := by
  unfold row addLoop
  simp only
  rw [List.getElem?_append_left hs]

theorem row_addLoop_new (m : Fsm) : m.addLoop.row m.size = fun _ => some {m.size} := by
  unfold row addLoop
  simp only [size]
  rw [List.getElem?_append_right (Nat.le_refl _), Nat.sub_self]
  rfl

theorem mem_targets_addLoop (m : Fsm) {s t : Nat} {c : Letter} :
    t ∈ m.addLoop.targets s c ↔ t ∈ m.targets s c ∨ (s = m.size ∧ t = m.size) := by
  have hklass : m.addLoop.klass c = m.klass c := rfl
  rcases Nat.lt_trichotomy s m.size with hs | rfl | hs
  · unfold targets
    rw [row_addLoop m hs, hklass]
    have hne : s ≠ m.size := Nat.ne_of_lt hs
    tauto
  · rw [targets_of_size_le (Nat.le_refl m.size)]
    unfold targets
    rw [row_addLoop_new]
    simp
  · rw [targets_of_size_le (by rw [size_addLoop]; exact hs), targets_of_size_le (Nat.le_of_lt hs)]
    have hne : s ≠ m.size := Nat.ne_of_gt hs
    simp [hne]

theorem Valid.addLoop (h : m.Valid) : m.addLoop.Valid where
  initial_lt := by rw [size_addLoop]; exact Nat.lt_succ_of_lt h.initial_lt
  final_lt s hs := by rw [size_addLoop]; exact Nat.lt_succ_of_lt (h.final_lt s hs)
  entries_lt s c tos hr t ht := by
    rw [size_addLoop]
    rcases Nat.lt_trichotomy s m.size with hs | rfl | hs
    · rw [row_addLoop m hs] at hr
      exact Nat.lt_succ_of_lt (h.entries_lt s c tos hr t ht)
    · rw [row_addLoop_new] at hr
      rw [← Option.some.inj hr, Finset.mem_singleton] at ht
      rw [ht]
      exact Nat.lt_succ_self _
    · rw [row_of_size_le (by rw [size_addLoop]; exact hs)] at hr
      exact absurd hr.symm (Option.some_ne_none tos)
  letters := h.letters
  inv_epsilon := h.inv_epsilon
  repeated s c k hk := by
    rcases Nat.lt_trichotomy s m.size with hs | rfl | hs
    · rw [row_addLoop m hs]
      exact h.repeated s c k hk
    · rw [row_addLoop_new]
      exact Or.inr rfl
    · rw [row_of_size_le (by rw [size_addLoop]; exact hs)]
      exact Or.inl rfl
  no_return ha := absurd ha Bool.false_ne_true
  silent ha := absurd ha Bool.false_ne_true
  not_final ha := absurd ha Bool.false_ne_true

theorem Valid.prependAnything (h : m.Valid) : m.prependAnything.Valid := by
  have hv := h.addLoop.connect m.size (b := m.initial)
    (by rw [size_addLoop]; exact Nat.lt_succ_of_lt h.initial_lt)
  refine hv.withEnds rfl ?_ hv.final_lt false
  rw [size_connect, size_addLoop]
  exact Nat.lt_succ_self _

theorem Valid.appendAnything (h : m.Valid) : m.appendAnything.Valid := by
  have hlt : m.size < m.addLoop.size := by rw [size_addLoop]; exact Nat.lt_succ_self _
  have hv := h.addLoop.connectFinal hlt
  refine hv.withEnds rfl hv.initial_lt (fun s hs => ?_) false
  rw [Finset.mem_singleton.mp hs, size_connectFinal]
  exact hlt

theorem Valid.surround (h : m.Valid) : m.surround.Valid := h.prependAnything.appendAnything

@[simp] theorem size_prependAnything (m : Fsm) : m.prependAnything.size = m.size + 1 := by
  show (m.addLoop.connect _ _ _).size = _
  rw [size_connect, size_addLoop]

theorem mem_targets_prependAnything (h : m.Valid) {s t : Nat} {c : Letter} (hs : s < m.size + 1) :
    t ∈ m.prependAnything.targets s c ↔
      (t ∈ m.targets s c ∨ (s = m.size ∧ t = m.size)) ∨
        (s = m.size ∧ c = epsilon ∧ t = m.initial) := by
  show t ∈ (m.addLoop.connect m.size m.initial epsilon).targets s c ↔ _
  rw [mem_targets_connect h.addLoop (by rw [size_addLoop]; exact hs), mem_targets_addLoop]

theorem mem_targets_appendAnything (h : m.Valid) {s t : Nat} {c : Letter} (hs : s < m.size + 1) :
    t ∈ m.appendAnything.targets s c ↔
      (t ∈ m.targets s c ∨ (s = m.size ∧ t = m.size)) ∨
        (s ∈ m.final ∧ c = epsilon ∧ t = m.size) := by
  show t ∈ (m.addLoop.connectFinal m.size epsilon).targets s c ↔ _
  rw [mem_targets_connectFinal h.addLoop (by rw [size_addLoop]; exact hs), mem_targets_addLoop]
  rfl

theorem lang_prependAnything (h : m.Valid) : m.prependAnything.lang = ⊤ * m.lang := by
  have hold : acceptsFrom m.prependAnything.nfa m.initial = acceptsFrom m.nfa m.initial := by
    have hstep : ∀ s c t, s < m.size →
        (t ∈ m.prependAnything.targets s c ↔ t ∈ m.targets s c) := by
      intro s c t hs
      have hne : s ≠ m.size := Nat.ne_of_lt hs
      rw [mem_targets_prependAnything h (Nat.lt_succ_of_lt hs)]
      tauto
    exact acceptsFrom_left (fun s o t _ ht => h.closed s o t ht) hstep (fun s _ => Iff.rfl)
      h.initial_lt
  rw [lang_eq, lang_eq, ← hold]
  refine acceptsFrom_of_entry ?_ (fun hf => Nat.lt_irrefl _ (h.final_lt _ hf))
  intro o t
  show t ∈ m.prependAnything.targets m.size (label o) ↔ t = m.size ∨ (o = none ∧ t = m.initial)
  rw [mem_targets_prependAnything h (Nat.lt_succ_self _),
    targets_of_size_le (Nat.le_refl m.size), label_eq_epsilon]
  simp

theorem lang_appendAnything (h : m.Valid) : m.appendAnything.lang = m.lang * ⊤ := by
  have hall : acceptsFrom m.appendAnything.nfa m.size = ⊤ := by
    refine acceptsFrom_universal (Finset.mem_singleton_self m.size) fun a => ?_
    rw [mem_step, mem_targets_appendAnything h (Nat.lt_succ_self _)]
    exact Or.inl (Or.inr ⟨rfl, rfl⟩)
  have hlang : m.appendAnything.lang =
      m.lang * departures m.appendAnything.nfa (fun o t => o = none ∧ t = m.size) := by
    refine lang_of_exits h rfl ?_ ?_
    · intro s o t hs
      have hne : s ≠ m.size := Nat.ne_of_lt hs
      rw [mem_targets_appendAnything h (Nat.lt_succ_of_lt hs), label_eq_epsilon]
      tauto
    · intro s hs hf
      exact Nat.ne_of_lt hs (Finset.mem_singleton.mp hf)
  rw [hlang, departures_silent, hall]

/-- A surrounded automaton accepts what holds a word of the original. -/
theorem lang_surround (h : m.Valid) : m.surround.lang = ⊤ * m.lang * ⊤ := by
  rw [surround, lang_appendAnything h.prependAnything, lang_prependAnything h]

end Anything

end Fsm
end Pire
end MediaServer
