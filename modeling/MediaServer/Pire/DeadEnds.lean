/-
`RemoveDeadEnds`: states that no accepted word goes through lose their
transitions.

Two searches find the states that the start leads to and those that lead to a
final state (`DeadStates`).  What is left has the same language
(`lang_removeDeadEnds_eq`), and each of its transitions is on an accepted word
(`removeDeadEnds_spec`).
-/
import MediaServer.Automata.Search
import MediaServer.Pire.Epsilons

namespace MediaServer
namespace Pire
namespace Fsm

open Automata

/-- One of the two graphs that `DeadStates` goes through. -/
def linked (m : Fsm) (invert : Bool) (s t : Nat) : Bool :=
  if invert then decide (∃ c, s ∈ m.entry t c) else decide (∃ c, t ∈ m.entry s c)

def connections (m : Fsm) (invert : Bool) (s : Nat) : List Nat :=
  ((Finset.range m.size).filter fun t => m.linked invert s t).sort

def searchStart (m : Fsm) (invert : Bool) : List Nat :=
  (List.range m.size).filter fun i =>
    if invert then decide (i ∈ m.final) else decide (i = m.initial)

/-- The states that the search does not come to.  A state that has been checked
is not useless, so the code's vector of these says nothing more. -/
def uselessStates (m : Fsm) (invert : Bool) : StatesSet :=
  search (m.connections invert) m.size (m.searchStart invert)
    ((Finset.range m.size).filter fun s => s ∉ m.searchStart invert)

def deadStates (m : Fsm) : StatesSet := m.uselessStates false ∪ m.uselessStates true

def removeDeadEnds (m : Fsm) : Fsm :=
  { m with
    transitions := m.transitions.mapIdx fun s row =>
      if s ∈ m.deadStates then emptyRow else fun c => (row c).map fun tos => tos \ m.deadStates
    isAlternative := false }

section DeadEnds

variable {m : Fsm}

theorem mem_connections {invert : Bool} {s t : Nat} :
    t ∈ m.connections invert s ↔ t < m.size ∧ m.linked invert s t = true := by
  unfold connections
  rw [Finset.mem_sort, Finset.mem_filter, Finset.mem_range]

theorem notMem_uselessStates_iff {invert : Bool} {s : Nat} (hs : s < m.size) :
    s ∉ m.uselessStates invert ↔ Met (m.connections invert) (m.searchStart invert) s := by
  have h := notMem_search_iff (U := Finset.range m.size) (m.connections invert)
    (m.searchStart invert)
    (fun _ _ t ht => Finset.mem_range.mpr (mem_connections.mp ht).1)
    (fun a ha => Finset.mem_range.mpr (List.mem_range.mp (List.mem_filter.mp ha).1))
    (List.nodup_range.filter _) (Finset.mem_range.mpr hs)
  rw [Finset.card_range] at h
  exact h

/-- A transition of the table is a step of the automaton. -/
theorem exists_entry_iff (h : m.Valid) {s t : Nat} :
    (∃ c, t ∈ m.entry s c) ↔ ∃ o, t ∈ m.nfa.step s o := by
  constructor
  · rintro ⟨c, hc⟩
    obtain ⟨o, rfl⟩ := exists_label c
    refine ⟨o, ?_⟩
    rw [mem_step]
    unfold targets klass
    cases hi : m.letters.inv (label o) with
    | none => exact hc
    | some k =>
      rw [Option.getD_some]
      unfold entry at hc
      rcases h.repeated s (label o) k hi with hr | hr
      · rw [hr] at hc
        exact absurd hc (Finset.notMem_empty t)
      · rwa [hr] at hc
  · rintro ⟨o, ho⟩
    exact ⟨m.klass (label o), ho⟩

theorem mem_connections_iff_step (h : m.Valid) {s t : Nat} :
    (t ∈ m.connections false s ↔ ∃ o, t ∈ m.nfa.step s o) ∧
      (t ∈ m.connections true s ↔ t < m.size ∧ ∃ o, s ∈ m.nfa.step t o) := by
  rw [mem_connections, mem_connections]
  unfold linked
  simp only [Bool.false_eq_true, if_false, if_true, decide_eq_true_eq, exists_entry_iff h]
  refine ⟨and_iff_right_of_imp ?_, trivial⟩
  rintro ⟨o, ho⟩
  exact h.targets_lt ho

theorem met_initial_iff (h : m.Valid) {s : Nat} :
    Met (m.connections false) (m.searchStart false) s ↔ ∃ x, Path m.nfa m.initial x s := by
  have hstart : ∀ a, a ∈ m.searchStart false ↔ a = m.initial := by
    intro a
    unfold searchStart
    rw [List.mem_filter, List.mem_range]
    simp only [Bool.false_eq_true, if_false, decide_eq_true_eq]
    exact and_iff_right_of_imp fun ha => ha ▸ h.initial_lt
  unfold Met
  simp only [hstart, exists_eq_left]
  constructor
  · intro hp
    induction hp with
    | refl => exact ⟨[], Path.nil _⟩
    | tail _ step ih =>
      obtain ⟨x, hx⟩ := ih
      obtain ⟨o, ho⟩ := (mem_connections_iff_step h).1.mp step
      exact ⟨_, hx.append (Path.single o ho)⟩
  · rintro ⟨x, hx⟩
    generalize m.initial = a at hx
    induction hx with
    | nil => exact Relation.ReflTransGen.refl
    | cons o step _ ih => exact ih.head ((mem_connections_iff_step h).1.mpr ⟨o, step⟩)

theorem met_final_iff (h : m.Valid) {s : Nat} (hs : s < m.size) :
    Met (m.connections true) (m.searchStart true) s ↔ ∃ x, x ∈ acceptsFrom m.nfa s := by
  have hstart : ∀ a, a ∈ m.searchStart true ↔ a ∈ m.final := by
    intro a
    unfold searchStart
    rw [List.mem_filter, List.mem_range]
    simp only [if_true, decide_eq_true_eq]
    exact and_iff_right_of_imp (h.final_lt a)
  constructor
  · rintro ⟨a, ha, hp⟩
    clear hs
    induction hp with
    | refl => exact ⟨[], acceptsFrom_of_accept ((hstart a).mp ha)⟩
    | tail _ step ih =>
      obtain ⟨x, hx⟩ := ih
      obtain ⟨-, o, ho⟩ := (mem_connections_iff_step h).2.mp step
      exact ⟨_, acceptsFrom_of_step o ho hx⟩
  · rintro ⟨x, u, hu, hx⟩
    refine ⟨u, (hstart u).mpr hu, ?_⟩
    clear hu
    induction hx with
    | nil => exact Relation.ReflTransGen.refl
    | cons o step _ ih =>
      exact (ih (h.targets_lt step)).tail ((mem_connections_iff_step h).2.mpr ⟨hs, o, step⟩)

/-- The states that are kept are those that an accepted word goes through. -/
theorem notMem_deadStates_iff (h : m.Valid) {s : Nat} (hs : s < m.size) :
    s ∉ m.deadStates ↔ (∃ x, Path m.nfa m.initial x s) ∧ ∃ y, y ∈ acceptsFrom m.nfa s := by
  unfold deadStates
  rw [Finset.mem_union, not_or, notMem_uselessStates_iff hs, notMem_uselessStates_iff hs,
    met_initial_iff h, met_final_iff h hs]

@[simp] theorem size_removeDeadEnds (m : Fsm) : m.removeDeadEnds.size = m.size := by
  simp only [size, removeDeadEnds, List.length_mapIdx]

theorem row_removeDeadEnds {s : Nat} (hs : s < m.size) (c : Letter) :
    m.removeDeadEnds.row s c =
      if s ∈ m.deadStates then none else (m.row s c).map fun tos => tos \ m.deadStates := by
  unfold row removeDeadEnds
  simp only [List.getElem?_mapIdx]
  rw [List.getElem?_eq_getElem hs]
  simp only [Option.map_some, Option.getD_some]
  split <;> rfl

theorem mem_targets_removeDeadEnds {s t : Nat} {c : Letter} :
    t ∈ m.removeDeadEnds.targets s c ↔
      t ∈ m.targets s c ∧ s ∉ m.deadStates ∧ t ∉ m.deadStates := by
  by_cases hs : s < m.size
  · show t ∈ (m.removeDeadEnds.row s (m.klass c)).getD ∅ ↔ t ∈ (m.row s (m.klass c)).getD ∅ ∧ _
    rw [row_removeDeadEnds hs]
    by_cases hd : s ∈ m.deadStates
    · simp [hd]
    · cases m.row s (m.klass c) with
      | none => simp [hd]
      | some tos => simp [hd]
  · have hle := Nat.le_of_not_lt hs
    rw [targets_of_size_le hle, targets_of_size_le (by rw [size_removeDeadEnds]; exact hle)]
    simp

theorem Valid.removeDeadEnds (h : m.Valid) : m.removeDeadEnds.Valid where
  initial_lt := by rw [size_removeDeadEnds]; exact h.initial_lt
  final_lt s hs := by rw [size_removeDeadEnds]; exact h.final_lt s hs
  entries_lt s c tos hr t ht := by
    by_cases hs : s < m.size
    · rw [row_removeDeadEnds hs] at hr
      split at hr
      · exact absurd hr.symm (Option.some_ne_none tos)
      · obtain ⟨old, hold, rfl⟩ := Option.map_eq_some_iff.mp hr
        rw [size_removeDeadEnds]
        exact h.entries_lt s c old hold t (Finset.mem_sdiff.mp ht).1
    · rw [row_of_size_le (by rw [size_removeDeadEnds]; exact Nat.le_of_not_lt hs)] at hr
      exact absurd hr.symm (Option.some_ne_none tos)
  letters := h.letters
  inv_epsilon := h.inv_epsilon
  repeated s c k hk := by
    by_cases hs : s < m.size
    · rw [row_removeDeadEnds hs, row_removeDeadEnds hs]
      split
      · exact Or.inl rfl
      · rcases h.repeated s c k hk with hr | hr
        · rw [hr]
          exact Or.inl rfl
        · rw [hr]
          exact Or.inr rfl
    · rw [row_of_size_le (by rw [size_removeDeadEnds]; exact Nat.le_of_not_lt hs)]
      exact Or.inl rfl
  no_return ha := absurd ha Bool.false_ne_true
  silent ha := absurd ha Bool.false_ne_true
  not_final ha := absurd ha Bool.false_ne_true

theorem lang_removeDeadEnds_eq (h : m.Valid) : m.removeDeadEnds.lang = m.lang := by
  rw [lang_eq, lang_eq]
  show acceptsFrom m.removeDeadEnds.nfa m.initial = _
  ext x
  constructor
  · rintro ⟨u, hu, hp⟩
    refine ⟨u, hu, hp.map id fun s o t ht => ?_⟩
    rw [mem_step, mem_targets_removeDeadEnds] at ht
    exact ht.1
  · rintro ⟨u, hu, hp⟩
    -- every state on the way comes from the start and leads to the end
    suffices key : ∀ {s x u}, u ∈ m.final → Path m.nfa s x u → s < m.size →
        (∃ z, Path m.nfa m.initial z s) → Path m.removeDeadEnds.nfa s x u from
      ⟨u, hu, key hu hp h.initial_lt ⟨[], Path.nil _⟩⟩
    intro s x u hu hp
    induction hp with
    | nil => exact fun _ _ => Path.nil _
    | @cons s t u y o step rest ih =>
      rintro hs ⟨z, hz⟩
      have ht := h.targets_lt step
      have hz' := hz.append (Path.single o step)
      refine Path.cons o ?_ (ih hu ht ⟨_, hz'⟩)
      rw [mem_step, mem_targets_removeDeadEnds]
      refine ⟨step, ?_, ?_⟩
      · exact (notMem_deadStates_iff h hs).mpr
          ⟨⟨z, hz⟩, _, acceptsFrom_of_step o step ⟨u, hu, rest⟩⟩
      · exact (notMem_deadStates_iff h ht).mpr ⟨⟨_, hz'⟩, y, u, hu, rest⟩

/-- Exactly the transitions on accepted words are left. -/
theorem mem_step_removeDeadEnds_iff (h : m.Valid) {s t : Nat} {o : Option Input} :
    t ∈ m.removeDeadEnds.nfa.step s o ↔ t ∈ m.nfa.step s o ∧
      (∃ x, Path m.nfa m.initial x s) ∧ ∃ y, y ∈ acceptsFrom m.nfa t := by
  rw [mem_step, mem_targets_removeDeadEnds, ← mem_step]
  refine and_congr_right fun step => ?_
  have ht := h.targets_lt (mem_step.mp step)
  have hs : s < m.size := by
    by_contra hs
    rw [mem_step, targets_of_size_le (Nat.le_of_not_lt hs)] at step
    exact absurd step (Finset.notMem_empty t)
  rw [notMem_deadStates_iff h hs, notMem_deadStates_iff h ht]
  constructor
  · rintro ⟨⟨hx, -⟩, -, hy⟩
    exact ⟨hx, hy⟩
  · rintro ⟨⟨x, hx⟩, y, hy⟩
    exact ⟨⟨⟨x, hx⟩, _, acceptsFrom_of_step o step hy⟩, ⟨_, hx.append (Path.single o step)⟩, y, hy⟩

theorem removeDeadEnds_spec (h : m.Valid) : m.removeDeadEnds.lang = m.lang ∧
    ∀ s t o, t ∈ m.removeDeadEnds.nfa.step s o ↔ t ∈ m.nfa.step s o ∧
      (∃ x, Path m.nfa m.initial x s) ∧ ∃ y, y ∈ acceptsFrom m.nfa t :=
  ⟨lang_removeDeadEnds_eq h, fun _ _ _ => mem_step_removeDeadEnds_iff h⟩

/-- The letter 'a', and a silent step from the start to a state without any step. -/
def withDeadEnd : Fsm := ((new.append (byte 0x61).1).grow 1).connect 0 2 epsilon

theorem removeDeadEnds_spec_withDeadEnd :
    (2 ∈ withDeadEnd.nfa.step 0 none ∧ [byte 0x61] ∈ withDeadEnd.lang) ∧
      withDeadEnd.removeDeadEnds.lang = withDeadEnd.lang ∧
      ∀ s t o, t ∈ withDeadEnd.removeDeadEnds.nfa.step s o ↔ t ∈ withDeadEnd.nfa.step s o ∧
        (∃ x, Path withDeadEnd.nfa withDeadEnd.initial x s) ∧
          ∃ y, y ∈ acceptsFrom withDeadEnd.nfa t := by
  have hvalid : ((new.append (byte 0x61).1).grow 1).Valid :=
    (valid_new.appendOneOf rfl (List.cons_ne_nil _ _)).grow 1
  refine ⟨⟨mem_step.mpr (by decide), ?_⟩, removeDeadEnds_spec (hvalid.connect 0 (by decide))⟩
  rw [lang_eq]
  exact ⟨1, mem_accept.mpr (by decide), Path.single (some _) (mem_step.mpr (by decide))⟩

end DeadEnds

end Fsm
end Pire
end MediaServer
