/-
`Fsm::Determine`: from states to sets of states.

A set of states that holds a terminal one (`TerminalStates`) is not looked
behind: it keeps itself on every letter.  The automaton that comes out has the
language of the one that went in (`lang_determine_eq`), and from each state exactly
one way on each letter (`deterministic_determine`).
-/
import MediaServer.Pire.Determine
import MediaServer.Pire.Epsilons

namespace MediaServer
namespace Pire
namespace Fsm

open Automata

/-! ## The task -/

/-- The letters that stand for their classes. -/
def keys (m : Fsm) : List Letter := m.letters.set.map Klass.key

/-- Final states that go to themselves on every letter. -/
def terminalStates (m : Fsm) : StatesSet :=
  m.final.filter fun s => ∀ k ∈ m.keys, s ∈ m.entry s k

/-- `FsmDetermineTask`.  Its states are sorted vectors without repetition in the
code. -/
def determineTask (m : Fsm) : Task StatesSet where
  letters := m.letters
  initial := {m.initial}
  next := fun q c => q.biUnion fun s => m.destinations s c
  isRequired := fun q => decide (∀ s ∈ q, s ∉ m.terminalStates)

def connectAll (m : Fsm) (connections : List (Nat × Letter × Nat)) : Fsm :=
  connections.foldl (fun m e => m.connect e.1 e.2.2 e.2.1) m

/-- The ways of the states with a terminal one in them. -/
def loops (m : Fsm) (states : List StatesSet) : List (Nat × Letter × Nat) :=
  states.zipIdx.flatMap fun q =>
    if m.determineTask.isRequired q.1 then [] else m.keys.map fun k => (q.2, k, q.2)

/-- `AcceptStates` -/
def acceptStates (m : Fsm) (states : List StatesSet) : Fsm :=
  connectAll
    { transitions := List.replicate states.length emptyRow
      initial := 0
      final := (Finset.range states.length).filter fun i => ∃ s ∈ states[i]?.getD ∅, s ∈ m.final
      letters := m.letters
      sparsed := false
      determined := true
      isAlternative := false } (m.loops states)

/-- Nothing where the code returns `false`; its callers throw then.  The flag
for a sparse table is not swapped with that of the new automaton. -/
def determine (m : Fsm) (maxSize : Nat) : Option Fsm :=
  if m.determined then some m
  else
    let m := m.removeEpsilons
    (m.determineTask.determine (if maxSize = 0 then 200000 else maxSize)).map fun found =>
      { (m.acceptStates found.states).connectAll found.connections with sparsed := m.sparsed }

/-! ## Deterministic automata -/

/-- One way from each state on each letter that stands for its class, and no
other entries. -/
structure Deterministic (m : Fsm) : Prop where
  initial : m.initial = 0
  size_pos : 0 < m.size
  final_lt : ∀ s ∈ m.final, s < m.size
  letters : ∃ eq, Partition.Sound eq (fun c => c ≠ epsilon) [] m.letters
  inv_epsilon : m.letters.inv epsilon = none
  next : ∀ s < m.size, ∀ k ∈ m.keys, ∃ t < m.size, m.row s k = some {t}
  bare : ∀ s, ∀ c, c ∉ m.keys → m.row s c = none
  alternative : m.isAlternative = false

theorem mem_keys {m : Fsm} {k : Letter} : k ∈ m.keys ↔ ∃ K ∈ m.letters.set, K.key = k :=
  List.mem_map

/-- The classes of a table have their keys among the letters but ε. -/
theorem key_of_mem_keys {m : Fsm} {eq : Letter → Letter → Bool}
    (h : Partition.Sound eq (fun c => c ≠ epsilon) [] m.letters) {k : Letter} (hk : k ∈ m.keys) :
    k ≠ epsilon ∧ m.letters.inv k = some k := by
  obtain ⟨K, hK, rfl⟩ := mem_keys.mp hk
  exact ⟨(h.cover _).mpr ⟨K, hK, h.key_mem hK⟩, h.inv_key hK⟩

theorem klass_mem_keys {m : Fsm} {eq : Letter → Letter → Bool}
    (h : Partition.Sound eq (fun c => c ≠ epsilon) [] m.letters) {c : Letter} (hc : c ≠ epsilon) :
    m.klass c ∈ m.keys := by
  obtain ⟨K, hK, -, hi⟩ := h.exists_klass hc
  unfold klass
  rw [hi, Option.getD_some]
  exact mem_keys.mpr ⟨K, hK, rfl⟩

theorem klass_of_mem_keys {m : Fsm} {eq : Letter → Letter → Bool}
    (h : Partition.Sound eq (fun c => c ≠ epsilon) [] m.letters) {k : Letter} (hk : k ∈ m.keys) :
    m.klass k = k := by
  unfold klass
  rw [(key_of_mem_keys h hk).2, Option.getD_some]

theorem targets_eq_entry (m : Fsm) (s : Nat) (c : Letter) :
    m.targets s c = m.entry s (m.klass c) := rfl

theorem klass_epsilon {m : Fsm} (h : m.letters.inv epsilon = none) : m.klass epsilon = epsilon := by
  unfold klass
  rw [h, Option.getD_none]

/-- Where a sparse table says a state goes on a letter of its class's own. -/
theorem destinations_of_mem_keys {m : Fsm} {eq : Letter → Letter → Bool}
    (h : Partition.Sound eq (fun c => c ≠ epsilon) [] m.letters) (s : Nat) {k : Letter}
    (hk : k ∈ m.keys) : m.destinations s k = m.targets s k := by
  obtain ⟨hne, hi⟩ := key_of_mem_keys h hk
  have htrans : m.translate k = k := by
    unfold translate Partition.representative
    rw [hi, Option.getD_some, ite_self]
  unfold destinations
  rw [htrans, targets_eq_entry, klass_of_mem_keys h hk]
  rfl

namespace Deterministic

variable {m : Fsm}

theorem valid (h : m.Deterministic) : m.Valid where
  initial_lt := by rw [h.initial]; exact h.size_pos
  final_lt := h.final_lt
  entries_lt s c tos hr t ht := by
    by_cases hc : c ∈ m.keys
    · by_cases hs : s < m.size
      · obtain ⟨u, hu, hru⟩ := h.next s hs c hc
        rw [hru] at hr
        rw [← Option.some.inj hr, Finset.mem_singleton] at ht
        rw [ht]
        exact hu
      · rw [row_of_size_le (Nat.le_of_not_lt hs)] at hr
        exact absurd hr.symm (Option.some_ne_none tos)
    · rw [h.bare s c hc] at hr
      exact absurd hr.symm (Option.some_ne_none tos)
  letters := Or.inr h.letters
  inv_epsilon := h.inv_epsilon
  repeated s c k hk := by
    by_cases hc : c ∈ m.keys
    · obtain ⟨eq, hsound⟩ := h.letters
      rw [(key_of_mem_keys hsound hc).2] at hk
      rw [← Option.some.inj hk]
      exact Or.inr rfl
    · exact Or.inl (h.bare s c hc)
  no_return ha := absurd (ha.symm.trans h.alternative) (Bool.false_ne_true ∘ Eq.symm)
  silent ha := absurd (ha.symm.trans h.alternative) (Bool.false_ne_true ∘ Eq.symm)
  not_final ha := absurd (ha.symm.trans h.alternative) (Bool.false_ne_true ∘ Eq.symm)

theorem targets_epsilon (h : m.Deterministic) (s : Nat) : m.targets s epsilon = ∅ := by
  obtain ⟨eq, hsound⟩ := h.letters
  unfold targets
  rw [klass_epsilon h.inv_epsilon, h.bare s epsilon fun hk => (key_of_mem_keys hsound hk).1 rfl]
  rfl

theorem no_silent (h : m.Deterministic) (s : Nat) : m.nfa.step s none = ∅ := by
  refine Set.eq_empty_of_forall_notMem fun t ht => ?_
  rw [mem_step] at ht
  show False
  rw [show label none = epsilon from rfl, h.targets_epsilon] at ht
  exact absurd ht (Finset.notMem_empty t)

end Deterministic

theorem row_of_entry_singleton {m : Fsm} {s t : Nat} {c : Letter} (h : m.entry s c = {t}) :
    m.row s c = some {t} := by
  unfold entry at h
  cases hr : m.row s c with
  | none =>
    rw [hr] at h
    exact absurd h.symm (Finset.singleton_ne_empty t)
  | some tos =>
    rw [hr] at h
    exact congrArg some h

/-! ## Connections -/

@[simp] theorem size_connectAll (m : Fsm) (es : List (Nat × Letter × Nat)) :
    (m.connectAll es).size = m.size := by
  induction es generalizing m with
  | nil => rfl
  | cons e es ih => exact (ih _).trans (size_connectWhere _ _ _ _)

theorem mem_entry_connectAll (m : Fsm) (es : List (Nat × Letter × Nat)) {s t : Nat} {c : Letter}
    (hs : s < m.size) :
    t ∈ (m.connectAll es).entry s c ↔ t ∈ m.entry s c ∨ (s, c, t) ∈ es := by
  induction es generalizing m with
  | nil => simp [connectAll]
  | cons e es ih =>
    obtain ⟨a, d, b⟩ := e
    have hs' : s < (m.connect a b d).size := by
      rw [connect, size_connectWhere]
      exact hs
    show t ∈ ((m.connect a b d).connectAll es).entry s c ↔ _
    rw [ih _ hs', mem_entry_connect m hs, List.mem_cons, Prod.mk.injEq, Prod.mk.injEq, or_assoc]

/-- What `Connect` leaves as it is. -/
theorem connectAll_fields (m : Fsm) (es : List (Nat × Letter × Nat)) :
    (m.connectAll es).initial = m.initial ∧ (m.connectAll es).final = m.final ∧
      (m.connectAll es).letters = m.letters ∧ (m.connectAll es).determined = m.determined ∧
      (m.isAlternative = false → (m.connectAll es).isAlternative = false) := by
  induction es generalizing m with
  | nil => exact ⟨rfl, rfl, rfl, rfl, id⟩
  | cons e es ih =>
    obtain ⟨h1, h2, h3, h4, h5⟩ := ih (m.connect e.1 e.2.2 e.2.1)
    exact ⟨h1, h2, h3, h4, fun _ => h5 rfl⟩

theorem row_connectAll_of_notMem (m : Fsm) (es : List (Nat × Letter × Nat)) {s : Nat} {c : Letter}
    (h : ∀ t, (s, c, t) ∉ es) : (m.connectAll es).row s c = m.row s c := by
  induction es generalizing m with
  | nil => rfl
  | cons e es ih =>
    obtain ⟨a, d, b⟩ := e
    show ((m.connect a b d).connectAll es).row s c = _
    rw [ih _ fun t ht => h t (List.mem_cons_of_mem _ ht)]
    by_cases hs : s < m.size
    · unfold connect
      rw [row_connectWhere m _ _ _ hs]
      split
      · rename_i hsa
        have hcd : c ≠ d := by
          rintro rfl
          exact h b (by rw [of_decide_eq_true hsa]; exact List.mem_cons_self)
        exact Function.update_of_ne hcd _ _
      · rfl
    · have hle := Nat.le_of_not_lt hs
      rw [row_of_size_le hle, row_of_size_le (by rw [connect, size_connectWhere]; exact hle)]

/-! ## What comes out -/

section Determine

variable {m : Fsm} {states : List StatesSet}

theorem isRequired_iff {q : StatesSet} :
    m.determineTask.isRequired q = true ↔ ∀ s ∈ q, s ∉ m.terminalStates := decide_eq_true_iff

theorem mem_loops {i j : Nat} {k : Letter} : (i, k, j) ∈ m.loops states ↔
    k ∈ m.keys ∧ ∃ q, states[i]? = some q ∧ m.determineTask.isRequired q = false ∧ j = i := by
  unfold loops
  rw [List.mem_flatMap]
  constructor
  · rintro ⟨⟨q, n⟩, hq, hmem⟩
    split at hmem
    · exact absurd hmem List.not_mem_nil
    · rename_i hr
      obtain ⟨k', hk', he⟩ := List.mem_map.mp hmem
      simp only [Prod.mk.injEq] at he
      obtain ⟨rfl, rfl, rfl⟩ := he
      exact ⟨hk', q, List.mem_zipIdx_iff_getElem?.mp hq, Bool.eq_false_iff.mpr hr, rfl⟩
  · rintro ⟨hk, q, hq, hr, rfl⟩
    refine ⟨(q, j), List.mem_zipIdx_iff_getElem?.mpr hq, ?_⟩
    rw [if_neg (Bool.eq_false_iff.mp hr)]
    exact List.mem_map.mpr ⟨k, hk, rfl⟩

/-- A state of the new automaton steps as the set that it stands for. -/
def StepsTo (m : Fsm) (states : List StatesSet) (i : Nat) (k : Letter) (j : Nat) : Prop :=
  ∃ q, states[i]? = some q ∧
    if m.determineTask.isRequired q then states[j]? = some (m.determineTask.next q k) else j = i

/-- The automaton over the states that were found. -/
structure OverStates (m : Fsm) (states : List StatesSet) (d : Fsm) : Prop where
  size : d.size = states.length
  initial : d.initial = 0
  letters : d.letters = m.letters
  alternative : d.isAlternative = false
  final : ∀ i, i ∈ d.final ↔ ∃ q, states[i]? = some q ∧ ∃ s ∈ q, s ∈ m.final
  entry : ∀ i k j, j ∈ d.entry i k ↔ k ∈ m.keys ∧ StepsTo m states i k j
  bare : ∀ i c, c ∉ m.keys → d.row i c = none

/-- The loops and the connections that were found are the steps. -/
theorem mem_loops_or_connections {maxSize : Nat} {found : Found StatesSet}
    (h : m.determineTask.determine maxSize = some found) {i j : Nat} {k : Letter} :
    (i, k, j) ∈ m.loops found.states ∨ (i, k, j) ∈ found.connections ↔
      k ∈ m.keys ∧ StepsTo m found.states i k j := by
  rw [mem_loops, Task.mem_connections_iff h]
  unfold StepsTo
  constructor
  · rintro (⟨hk, q, hq, hr, rfl⟩ | ⟨hk, q, hq, hr, hj⟩)
    · exact ⟨hk, q, hq, by rw [hr]; rfl⟩
    · exact ⟨hk, q, hq, by rw [if_pos hr]; exact hj⟩
  · rintro ⟨hk, q, hq, hj⟩
    by_cases hr : m.determineTask.isRequired q = true
    · rw [if_pos hr] at hj
      exact Or.inr ⟨hk, q, hq, hr, hj⟩
    · rw [if_neg hr] at hj
      exact Or.inl ⟨hk, q, hq, Bool.eq_false_iff.mpr hr, hj⟩

theorem overStates_determine {maxSize : Nat} {found : Found StatesSet}
    (h : m.determineTask.determine maxSize = some found) (sparsed : Bool) :
    OverStates m found.states
      { (m.acceptStates found.states).connectAll found.connections with sparsed := sparsed } := by
  set base : Fsm :=
    { transitions := List.replicate found.states.length emptyRow
      initial := 0
      final := (Finset.range found.states.length).filter fun i =>
        ∃ s ∈ found.states[i]?.getD ∅, s ∈ m.final
      letters := m.letters
      sparsed := false
      determined := true
      isAlternative := false } with hbase
  have hrow : ∀ s c, base.row s c = none := by
    intro s c
    unfold row
    rw [hbase, List.getElem?_replicate]
    split <;> rfl
  have hsize : base.size = found.states.length := List.length_replicate
  have hentry : ∀ s c t, s < base.size → (t ∈ ((m.acceptStates found.states).connectAll
      found.connections).entry s c ↔
        (s, c, t) ∈ m.loops found.states ∨ (s, c, t) ∈ found.connections) := by
    intro s c t hs
    have hs' : s < (m.acceptStates found.states).size :=
      Nat.lt_of_lt_of_eq hs (size_connectAll base _).symm
    rw [mem_entry_connectAll _ _ hs']
    show t ∈ (base.connectAll (m.loops found.states)).entry s c ∨ _ ↔ _
    rw [mem_entry_connectAll _ _ hs]
    have hempty : t ∉ base.entry s c := by
      unfold entry
      rw [hrow]
      exact Finset.notMem_empty t
    simp only [hempty, false_or]
  obtain ⟨hi, hf, hl, -, ha⟩ := connectAll_fields base (m.loops found.states)
  obtain ⟨hi', hf', hl', -, ha'⟩ :=
    connectAll_fields (m.acceptStates found.states) found.connections
  refine ⟨?_, hi'.trans hi, hl'.trans hl, ha' (ha rfl), ?_, ?_, ?_⟩
  · exact (size_connectAll _ _).trans ((size_connectAll base _).trans hsize)
  · intro i
    show i ∈ ((m.acceptStates found.states).connectAll found.connections).final ↔ _
    rw [hf']
    show i ∈ (base.connectAll (m.loops found.states)).final ↔ _
    rw [hf, hbase]
    simp only [Finset.mem_filter, Finset.mem_range]
    constructor
    · rintro ⟨hlt, s, hs, hsf⟩
      rw [List.getElem?_eq_getElem hlt, Option.getD_some] at hs
      exact ⟨_, List.getElem?_eq_getElem hlt, s, hs, hsf⟩
    · rintro ⟨q, hq, s, hs, hsf⟩
      refine ⟨(List.getElem?_eq_some_iff.mp hq).1, s, ?_, hsf⟩
      rw [hq, Option.getD_some]
      exact hs
  · intro i k j
    by_cases hlt : i < base.size
    · exact (hentry i k j hlt).trans (mem_loops_or_connections h)
    · have hle : found.states.length ≤ i := by rw [← hsize]; exact Nat.le_of_not_lt hlt
      have hout : (((m.acceptStates found.states).connectAll found.connections)).size ≤ i := by
        rw [size_connectAll]
        exact Nat.le_trans (Nat.le_of_eq (size_connectAll base _)) (Nat.le_of_not_lt hlt)
      constructor
      · intro hj
        have hnone :
            j ∈ ((m.acceptStates found.states).connectAll found.connections).entry i k := hj
        rw [entry_of_size_le hout] at hnone
        exact absurd hnone (Finset.notMem_empty j)
      · rintro ⟨-, q, hq, -⟩
        rw [List.getElem?_eq_none hle] at hq
        exact absurd hq.symm (Option.some_ne_none q)
  · intro i c hc
    have hno : ∀ t, (i, c, t) ∉ m.loops found.states ∧ (i, c, t) ∉ found.connections := by
      intro t
      rw [← not_or, mem_loops_or_connections h]
      exact fun hk => hc hk.1
    show ((m.acceptStates found.states).connectAll found.connections).row i c = none
    rw [row_connectAll_of_notMem _ _ fun t => (hno t).2]
    show (base.connectAll (m.loops found.states)).row i c = none
    rw [row_connectAll_of_notMem _ _ fun t => (hno t).1, hrow]

/-- The steps over the states that were found go one way. -/
theorem exists_stepsTo {maxSize : Nat} {found : Found StatesSet}
    (h : m.determineTask.determine maxSize = some found) {i : Nat}
    (hi : i < found.states.length) {k : Letter} (hk : k ∈ m.keys) :
    ∃ j < found.states.length, ∀ j', StepsTo m found.states i k j' ↔ j' = j := by
  have hnodup := (Task.explored_of_determine h).nodup
  have hq : found.states[i]? = some found.states[i] := List.getElem?_eq_getElem hi
  have hthe : ∀ j', StepsTo m found.states i k j' ↔
      if m.determineTask.isRequired found.states[i] then
        found.states[j']? = some (m.determineTask.next found.states[i] k) else j' = i := by
    intro j'
    constructor
    · rintro ⟨q, hq', hj⟩
      rw [Option.some.inj (hq.symm.trans hq')]
      exact hj
    · intro hj
      exact ⟨_, hq, hj⟩
  by_cases hr : m.determineTask.isRequired found.states[i] = true
  · have hmem := (Task.mem_states_iff h).mpr
      (((Task.mem_states_iff h).mp (List.getElem_mem hi)).next hr hk)
    obtain ⟨j, hj⟩ := List.getElem?_of_mem hmem
    have hlt := (List.getElem?_eq_some_iff.mp hj).1
    refine ⟨j, hlt, fun j' => ?_⟩
    rw [hthe, if_pos hr]
    constructor
    · intro hj'
      exact ((List.getElem?_inj hlt hnodup).mp (hj.trans hj'.symm)).symm
    · rintro rfl
      exact hj
  · refine ⟨i, hi, fun j' => ?_⟩
    rw [hthe, if_neg hr]

/-- The new automaton is deterministic. -/
theorem OverStates.deterministic {d : Fsm} {maxSize : Nat} {found : Found StatesSet}
    (h : m.determineTask.determine maxSize = some found) (hd : OverStates m found.states d)
    {eq : Letter → Letter → Bool}
    (hletters : Partition.Sound eq (fun c => c ≠ epsilon) [] m.letters)
    (hinv : m.letters.inv epsilon = none) : d.Deterministic where
  initial := hd.initial
  size_pos := by
    rw [hd.size]
    exact (List.getElem?_eq_some_iff.mp (Task.explored_of_determine h).first).1
  final_lt s hs := by
    obtain ⟨q, hq, -⟩ := (hd.final s).mp hs
    rw [hd.size]
    exact (List.getElem?_eq_some_iff.mp hq).1
  letters := by
    rw [hd.letters]
    exact ⟨eq, hletters⟩
  inv_epsilon := by rw [hd.letters]; exact hinv
  next s hs k hk := by
    have hk' : k ∈ m.keys := by
      unfold keys at hk ⊢
      rwa [hd.letters] at hk
    rw [hd.size] at hs
    obtain ⟨j, hj, hsteps⟩ := exists_stepsTo h hs hk'
    refine ⟨j, by rw [hd.size]; exact hj, ?_⟩
    refine row_of_entry_singleton ?_
    ext j'
    rw [hd.entry, Finset.mem_singleton, hsteps]
    exact and_iff_right hk'
  bare s c hc := hd.bare s c fun hk => hc (by unfold keys at hk ⊢; rwa [hd.letters])
  alternative := hd.alternative

/-- The next set of states, on a letter that is known by its key. -/
theorem mem_next_klass {eq : Letter → Letter → Bool}
    (hletters : Partition.Sound eq (fun c => c ≠ epsilon) [] m.letters) {p : StatesSet}
    {c : Input} {t : Nat} : t ∈ m.determineTask.next p (m.klass c.1) ↔
      ∃ s ∈ p, t ∈ m.nfa.step s (some c) := by
  have hk := klass_mem_keys hletters c.2
  have hsame : ∀ s, m.destinations s (m.klass c.1) = m.targets s c.1 := by
    intro s
    rw [destinations_of_mem_keys hletters s hk, targets_eq_entry, klass_of_mem_keys hletters hk]
    rfl
  show t ∈ p.biUnion _ ↔ _
  rw [Finset.mem_biUnion]
  simp only [hsame]
  rfl

theorem OverStates.mem_step_iff {d : Fsm} {states : List StatesSet} (hd : OverStates m states d)
    {eq : Letter → Letter → Bool}
    (hletters : Partition.Sound eq (fun c => c ≠ epsilon) [] m.letters) {i j : Nat} {c : Input} :
    j ∈ d.nfa.step i (some c) ↔ StepsTo m states i (m.klass c.1) j := by
  have hklass : d.klass c.1 = m.klass c.1 := by
    unfold klass
    rw [hd.letters]
  rw [mem_step]
  show j ∈ d.targets i c.1 ↔ _
  rw [targets_eq_entry, hklass, hd.entry]
  exact and_iff_right (klass_mem_keys hletters c.2)

/-- A word is accepted from a set of states when it is from one of them. -/
theorem OverStates.acceptsFrom {d : Fsm} {maxSize : Nat} {found : Found StatesSet}
    (h : m.determineTask.determine maxSize = some found) (hd : OverStates m found.states d)
    {eq : Letter → Letter → Bool}
    (hletters : Partition.Sound eq (fun c => c ≠ epsilon) [] m.letters)
    (hinv : m.letters.inv epsilon = none) (hm : ∀ s, m.nfa.step s none = ∅) {i : Nat}
    {q : StatesSet} (hq : found.states[i]? = some q) (x : List Input) :
    x ∈ Automata.acceptsFrom d.nfa i ↔ ∃ s ∈ q, x ∈ Automata.acceptsFrom m.nfa s := by
  have hdet := hd.deterministic h hletters hinv
  have hrequired : ∀ {i : Nat} {p : StatesSet}, found.states[i]? = some p →
      (m.determineTask.isRequired p = true ↔
        ¬ ∃ s ∈ {s | ∃ q : StatesSet, found.states[i]? = some q ∧ s ∈ q},
          s ∈ m.terminalStates) := by
    intro i p hp
    rw [isRequired_iff]
    constructor
    · rintro hall ⟨s, ⟨q', hq', hs⟩, hst⟩
      rw [← Option.some.inj (hp.symm.trans hq')] at hs
      exact hall s hs hst
    · intro hno s hs hst
      exact hno ⟨s, ⟨p, hp, hs⟩, hst⟩
  have hmain := acceptsFrom_members (M := m.nfa) (N := d.nfa)
    (Q := fun i => i < found.states.length)
    (fun i => {s | ∃ q : StatesSet, found.states[i]? = some q ∧ s ∈ q})
    (T := {s | s ∈ m.terminalStates}) hm hdet.no_silent ?_ ?_ ?_ ?_
    (List.getElem?_eq_some_iff.mp hq).1 x
  · rw [hmain]
    constructor
    · rintro ⟨s, ⟨q', hq', hs⟩, hx⟩
      rw [← Option.some.inj (hq.symm.trans hq')] at hs
      exact ⟨s, hs, hx⟩
    · rintro ⟨s, hs, hx⟩
      exact ⟨s, ⟨q, hq, hs⟩, hx⟩
  · intro s hs
    obtain ⟨hf, hall⟩ := Finset.mem_filter.mp hs
    exact ⟨hf, fun c => hall _ (klass_mem_keys hletters c.2)⟩
  · intro i c hi hterm
    have hp := List.getElem?_eq_getElem hi
    ext j
    rw [hd.mem_step_iff hletters, Set.mem_singleton_iff]
    constructor
    · rintro ⟨p', hp', hj⟩
      rw [if_neg fun hr => (hrequired hp').mp hr hterm] at hj
      exact hj
    · rintro rfl
      exact ⟨_, hp, by rw [if_neg fun hr => (hrequired hp).mp hr hterm]⟩
  · intro i c hi hno
    have hp := List.getElem?_eq_getElem hi
    have hr := (hrequired hp).mpr hno
    obtain ⟨j, hj, hsteps⟩ := exists_stepsTo h hi (klass_mem_keys hletters c.2)
    refine ⟨j, ?_, hj, ?_⟩
    · ext j'
      rw [hd.mem_step_iff hletters, hsteps, Set.mem_singleton_iff]
    · intro t
      obtain ⟨p', hp', hnew⟩ := (hsteps j).mpr rfl
      rw [← Option.some.inj (hp.symm.trans hp'), if_pos hr] at hnew
      constructor
      · rintro ⟨r, hr', ht⟩
        rw [← Option.some.inj (hnew.symm.trans hr'), mem_next_klass hletters] at ht
        obtain ⟨s, hs, hst⟩ := ht
        exact ⟨s, ⟨_, hp, hs⟩, hst⟩
      · rintro ⟨s, ⟨r, hr', hs⟩, hst⟩
        rw [← Option.some.inj (hp.symm.trans hr')] at hs
        exact ⟨_, hnew, (mem_next_klass hletters).mpr ⟨s, hs, hst⟩⟩
  · intro i hi
    rw [mem_accept, hd.final]
    constructor
    · rintro ⟨p, hp, s, hs, hsf⟩
      exact ⟨s, ⟨p, hp, hs⟩, hsf⟩
    · rintro ⟨s, ⟨p, hp, hs⟩, hsf⟩
      exact ⟨p, hp, s, hs, hsf⟩

theorem determine_eq_some {d : Fsm} {maxSize : Nat} (h : m.determine maxSize = some d) :
    (m.determined = true ∧ d = m) ∨ ∃ n found,
      m.removeEpsilons.determineTask.determine n = some found ∧
        OverStates m.removeEpsilons found.states d := by
  unfold determine at h
  split at h
  · rename_i hd
    exact Or.inl ⟨hd, (Option.some.inj h).symm⟩
  · obtain ⟨found, hf, rfl⟩ := Option.map_eq_some_iff.mp h
    exact Or.inr ⟨_, found, hf, overStates_determine hf _⟩

/-- What `Determine` promises: an automaton marked so is deterministic. -/
def Marked (m : Fsm) : Prop := m.determined = true → m.Deterministic

theorem removeEpsilons_inv_epsilon (m : Fsm) : m.removeEpsilons.letters.inv epsilon = none :=
  sparse_inv_epsilon _

theorem deterministic_determine (hmark : m.Marked) {d : Fsm} {maxSize : Nat}
    (hd : m.determine maxSize = some d) : d.Deterministic := by
  rcases determine_eq_some hd with ⟨hm, rfl⟩ | ⟨n, found, hf, hover⟩
  · exact hmark hm
  · obtain ⟨eq, hletters⟩ := removeEpsilons_letters m
    exact hover.deterministic hf hletters (removeEpsilons_inv_epsilon m)

theorem lang_determine_eq (h : m.Valid) {d : Fsm} {maxSize : Nat}
    (hd : m.determine maxSize = some d) : d.lang = m.lang := by
  rcases determine_eq_some hd with ⟨-, rfl⟩ | ⟨n, found, hf, hover⟩
  · rfl
  · obtain ⟨eq, hletters⟩ := removeEpsilons_letters m
    rw [← lang_removeEpsilons h, lang_eq, lang_eq, hover.initial]
    ext x
    rw [hover.acceptsFrom hf hletters (removeEpsilons_inv_epsilon m) (no_silent_removeEpsilons h)
      (Task.explored_of_determine hf).first]
    show (∃ s ∈ ({m.removeEpsilons.initial} : StatesSet), _) ↔ _
    simp only [Finset.mem_singleton, exists_eq_left]

end Determine

end Fsm
end Pire
end MediaServer
