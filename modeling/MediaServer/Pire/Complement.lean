/-
Complement, intersection and canonical form of automata.

`Complement` leaves a deterministic automaton by ε at the states that do not
accept, and `operator &=` is the complement of the union of two complements.
`Canonize` gives the automaton that scanners are built from: of all the
deterministic automata of its language there is none with fewer states
(`canonize_smallest`).
-/
import MediaServer.Pire.Alternation
import MediaServer.Pire.Minimize
import Mathlib.Data.Fintype.Card

namespace MediaServer
namespace Pire
namespace Fsm

open Automata

section Operations

variable [StdPartition Nat]

/-- Nothing where the code throws. -/
def complement (m : Fsm) : Option Fsm :=
  (m.determine 0).map fun m =>
    let m := m.minimize
    let j := m.grow 1
    { j.connectWhere (fun s => s ∉ m.final) (j.size - 1) epsilon with
      final := {j.size - 1}
      determined := false }

/-- `operator &=` -/
def intersect (m rhs : Fsm) : Option Fsm := do
  let m ← m.complement
  let rhs ← rhs.complement
  (m.alternate rhs).complement

/-- Nothing where the code throws. -/
def canonize (m : Fsm) (maxSize : Nat) : Option Fsm := (m.determine maxSize).map minimize

end Operations

/-! ## Complement -/

section Complement

variable {m d : Fsm}

/-- The automaton with the ways out to a new end. -/
def withExits (d : Fsm) : Fsm :=
  { (d.grow 1).connectWhere (fun s => s ∉ d.final) ((d.grow 1).size - 1) epsilon with
    final := {(d.grow 1).size - 1}
    determined := false }

theorem valid_withExits (hd : d.Deterministic) : d.withExits.Valid := by
  have hv := hd.valid.grow 1
  have hlast : (d.grow 1).size - 1 < (d.grow 1).size := by
    rw [size_grow]
    omega
  have hc := hv.connectWhere (fun s => s ∉ d.final) hlast hv.free_epsilon
  refine hc.withEnds rfl ?_ ?_ false
  · exact hc.initial_lt
  · intro s hs
    rw [Finset.mem_singleton.mp hs, size_connectWhere]
    exact hlast

theorem mem_targets_withExits (hd : d.Deterministic) {s t : Nat} {c : Letter}
    (hs : s < d.size + 1) :
    t ∈ d.withExits.targets s c ↔
      t ∈ d.targets s c ∨ (s ∉ d.final ∧ c = epsilon ∧ t = d.size) := by
  have hv := hd.valid.grow 1
  have hs' : s < (d.grow 1).size := by
    rw [size_grow]
    exact hs
  show t ∈ ((d.grow 1).connectWhere _ _ _).targets s c ↔ _
  rw [mem_targets_connectWhere hv.free_epsilon hs', targets_grow, decide_eq_true_eq, size_grow,
    Nat.add_sub_cancel]

theorem lang_withExits (hd : d.Deterministic) : d.withExits.lang = d.langᶜ := by
  have hlast : (d.grow 1).size - 1 = d.size := by
    rw [size_grow, Nat.add_sub_cancel]
  have hfinal : ∀ s, s ∈ d.withExits.final ↔ s = d.size := by
    intro s
    show s ∈ ({(d.grow 1).size - 1} : Finset Nat) ↔ _
    rw [hlast, Finset.mem_singleton]
  have hnone : ∀ c, d.targets d.size c = ∅ := targets_of_size_le (Nat.le_refl _)
  have hend : ∀ o t, t ∈ d.withExits.nfa.step d.size o → o = none ∧ t = d.size := by
    intro o t ht
    rw [mem_step, mem_targets_withExits hd (Nat.lt_succ_self _), hnone] at ht
    rcases ht with ht | ⟨-, ho, rfl⟩
    · exact absurd ht (Finset.notMem_empty t)
    · exact ⟨label_eq_epsilon.mp ho, rfl⟩
  rw [lang_eq, lang_eq]
  refine acceptsFrom_compl (fun s c => d.detTran s (d.klass c.1)) (f := id) (z := d.size)
    (P := (· < d.size)) hd.no_silent ?_ ?_ ?_ ?_ ?_ ?_ hd.valid.initial_lt
  · intro s c hs
    exact ⟨hd.step_eq hs c, (hd.targets_eq hs c.2).2⟩
  · intro s o t hs
    show t ∈ d.withExits.targets s (label o) ↔ _
    rw [mem_targets_withExits hd (Nat.lt_succ_of_lt hs), label_eq_epsilon, Set.image_id]
    rfl
  · intro s hs hf
    rw [mem_accept, hfinal] at hf
    exact absurd hf (Nat.ne_of_lt hs)
  · intro o t ht
    exact (hend o t ht).2
  · intro c
    refine Set.eq_empty_of_forall_notMem fun t ht => ?_
    exact absurd (hend (some c) t ht).1 (Option.some_ne_none c)
  · rw [mem_accept, hfinal]

theorem marked_of_determined_eq_false {m : Fsm} (h : m.determined = false) : m.Marked :=
  fun hm => absurd (h.symm.trans hm) Bool.false_ne_true

theorem marked_alternate (m rhs : Fsm) : (m.alternate rhs).Marked :=
  marked_of_determined_eq_false rfl

variable [StdPartition Nat]

theorem complement_eq_some (h : m.complement = some d) :
    ∃ c, m.determine 0 = some c ∧ c.minimize.withExits = d := by
  unfold complement at h
  exact Option.map_eq_some_iff.mp h

theorem Valid.complement (hmark : m.Marked) (h : m.complement = some d) : d.Valid := by
  obtain ⟨c, hc, rfl⟩ := complement_eq_some h
  exact valid_withExits (deterministic_minimize (deterministic_determine hmark hc))

theorem determined_complement (h : m.complement = some d) : d.determined = false := by
  obtain ⟨c, -, rfl⟩ := complement_eq_some h
  rfl

theorem not_final_complement (hmark : m.Marked) (h : m.complement = some d) :
    d.initial ∉ d.final := by
  obtain ⟨c, hc, rfl⟩ := complement_eq_some h
  have hdet := deterministic_minimize (deterministic_determine hmark hc)
  show c.minimize.initial ∉ ({(c.minimize.grow 1).size - 1} : Finset Nat)
  rw [Finset.mem_singleton, size_grow, hdet.initial]
  have hpos := hdet.size_pos
  omega

theorem lang_complement_eq (hm : m.Valid) (hmark : m.Marked) (h : m.complement = some d) :
    d.lang = m.langᶜ := by
  obtain ⟨c, hc, rfl⟩ := complement_eq_some h
  have hdet := deterministic_determine hmark hc
  rw [lang_withExits (deterministic_minimize hdet), lang_minimize_eq hdet, lang_determine_eq hm hc]

theorem intersect_eq_some {rhs : Fsm} (h : m.intersect rhs = some d) : ∃ a b,
    m.complement = some a ∧ rhs.complement = some b ∧ (a.alternate b).complement = some d := by
  unfold intersect at h
  obtain ⟨a, ha, h⟩ := Option.bind_eq_some_iff.mp h
  obtain ⟨b, hb, h⟩ := Option.bind_eq_some_iff.mp h
  exact ⟨a, b, ha, hb, h⟩

theorem Valid.intersect {rhs : Fsm} (h : m.intersect rhs = some d) : d.Valid := by
  obtain ⟨a, b, -, -, hd⟩ := intersect_eq_some h
  exact Valid.complement (marked_alternate a b) hd

theorem lang_intersect_eq {rhs : Fsm} (hm : m.Valid) (hmark : m.Marked) (hr : rhs.Valid)
    (hmark' : rhs.Marked) (h : m.intersect rhs = some d) : d.lang = m.lang ⊓ rhs.lang := by
  obtain ⟨a, b, ha, hb, hd⟩ := intersect_eq_some h
  have hva := Valid.complement hmark ha
  have hvb := Valid.complement hmark' hb
  rw [lang_complement_eq (hva.alternate hvb) (marked_alternate a b) hd, lang_alternate hva hvb,
    lang_complement_eq hm hmark ha, lang_complement_eq hr hmark' hb]
  show (m.langᶜ ⊔ rhs.langᶜ)ᶜ = m.lang ⊓ rhs.lang
  rw [compl_sup, compl_compl, compl_compl]

end Complement

/-! ## Canonical form -/

section Canonize

variable {m d : Fsm}

/-- Where a deterministic automaton ends. -/
def run (m : Fsm) (s : Nat) (x : List Input) : Nat :=
  x.foldl (fun s c => m.detTran s (m.klass c.1)) s

/-- Every state is one that a word leads to. -/
def Accessible (m : Fsm) : Prop := ∀ s < m.size, ∃ x, m.run 0 x = s

namespace Deterministic

theorem run_lt (h : m.Deterministic) {s : Nat} (hs : s < m.size) (x : List Input) :
    m.run s x < m.size := by
  induction x generalizing s with
  | nil => exact hs
  | cons c x ih => exact ih (h.targets_eq hs c.2).2

theorem mem_acceptsFrom_iff_run (h : m.Deterministic) {s : Nat} (hs : s < m.size)
    (x : List Input) : x ∈ acceptsFrom m.nfa s ↔ m.run s x ∈ m.final :=
  acceptsFrom_deterministic _ (P := (· < m.size)) h.no_silent
    (fun _ c hs => ⟨h.step_eq hs c, (h.targets_eq hs c.2).2⟩) hs x

/-- What a state accepts is what is accepted behind a word that leads to it. -/
theorem acceptsFrom_run (h : m.Deterministic) {s : Nat} (hs : s < m.size) (x y : List Input) :
    y ∈ acceptsFrom m.nfa (m.run s x) ↔ x ++ y ∈ acceptsFrom m.nfa s := by
  rw [h.mem_acceptsFrom_iff_run (h.run_lt hs x), h.mem_acceptsFrom_iff_run hs]
  unfold run
  rw [List.foldl_append]

/-- An accessible automaton whose states have languages of their own has no more
states than another one of its language. -/
theorem size_le (h : m.Deterministic) (hacc : m.Accessible)
    (hdistinct : ∀ i j, i < m.size → j < m.size →
      acceptsFrom m.nfa i = acceptsFrom m.nfa j → i = j)
    (h' : d.Deterministic) (hlang : d.lang = m.lang) : m.size ≤ d.size := by
  have hsame : ∀ x y, y ∈ acceptsFrom d.nfa (d.run 0 x) ↔ y ∈ acceptsFrom m.nfa (m.run 0 x) := by
    intro x y
    have hl := congrArg (x ++ y ∈ ·) hlang
    rw [lang_eq, lang_eq, h.initial, h'.initial] at hl
    rw [h.acceptsFrom_run h.size_pos, h'.acceptsFrom_run h'.size_pos]
    exact iff_of_eq hl
  choose word hword using fun i : Fin m.size => hacc i.1 i.2
  let f : Fin m.size → Fin d.size := fun i => ⟨d.run 0 (word i), h'.run_lt h'.size_pos _⟩
  have hf : Function.Injective f := by
    intro i j hij
    refine Fin.ext (hdistinct i j i.2 j.2 ?_)
    ext y
    have hrun : d.run 0 (word i) = d.run 0 (word j) := congrArg Fin.val hij
    rw [← hword i, ← hword j, ← hsame, ← hsame, hrun]
  have hcard := Fintype.card_le_of_injective f hf
  rwa [Fintype.card_fin, Fintype.card_fin] at hcard

end Deterministic

theorem detTran_of_entry {s t : Nat} {k : Letter} (h : m.entry s k = {t}) : m.detTran s k = t := by
  unfold detTran
  rw [h, Finset.sort_singleton]
  rfl

/-- The states that `Determine` finds are all led to. -/
theorem accessible_determine (hd : m.determined = false) {maxSize : Nat}
    (h : m.determine maxSize = some d) : d.Accessible := by
  rcases determine_eq_some h with ⟨hm, -⟩ | ⟨n, found, hf, hover⟩
  · exact absurd (hd.symm.trans hm) Bool.false_ne_true
  · obtain ⟨eq, hletters⟩ := removeEpsilons_letters m
    have hexp := Task.explored_of_determine hf
    have hklass : ∀ c, d.klass c = m.removeEpsilons.klass c := by
      intro c
      unfold klass
      rw [hover.letters]
    have key : ∀ q, m.removeEpsilons.determineTask.Reached q → ∀ i,
        found.states[i]? = some q → ∃ x, d.run 0 x = i := by
      intro q hq
      induction hq with
      | initial =>
        intro i hi
        have hlt := (List.getElem?_eq_some_iff.mp hexp.first).1
        exact ⟨[], (List.getElem?_inj hlt hexp.nodup).mp (hexp.first.trans hi.symm)⟩
      | @next q k hq hr hk ih =>
        intro j hj
        obtain ⟨i, hi⟩ := List.getElem?_of_mem ((Task.mem_states_iff hf).mpr hq)
        obtain ⟨x, hx⟩ := ih i hi
        have hk' : k ∈ m.removeEpsilons.keys := hk
        have hlt := (List.getElem?_eq_some_iff.mp hi).1
        obtain ⟨j', -, hsteps⟩ := exists_stepsTo hf hlt hk'
        have hjj : j = j' := (hsteps j).mp ⟨q, hi, by rw [if_pos hr]; exact hj⟩
        refine ⟨x ++ [⟨k, (key_of_mem_keys hletters hk').1⟩], ?_⟩
        unfold run at hx ⊢
        rw [List.foldl_append, hx]
        show d.detTran i (d.klass k) = j
        rw [hklass, klass_of_mem_keys hletters hk']
        refine detTran_of_entry ?_
        ext t
        rw [hover.entry, Finset.mem_singleton, hsteps, hjj]
        exact and_iff_right hk'
    intro i hi
    rw [hover.size] at hi
    exact key _ ((Task.mem_states_iff hf).mp (List.getElem_mem hi)) i (List.getElem?_eq_getElem hi)

section Minimized

variable [StdPartition Nat]

/-- A class is where the classes run to when the states run into it. -/
theorem run_minimize (h : m.Deterministic) {s : Nat} (hs : s < m.size) (x : List Input) :
    m.minimize.run (m.classIndex s) x = m.classIndex (m.run s x) := by
  induction x generalizing s with
  | nil => rfl
  | cons c x ih =>
    obtain ⟨eq, hsound⟩ := h.letters
    have hk := klass_mem_keys hsound c.2
    have hklass : m.minimize.klass c.1 = m.klass c.1 := by
      show (m.classTable.letters.inv c.1).getD c.1 = _
      rw [(classTable_fields m).1]
      rfl
    have hnext : m.minimize.detTran (m.classIndex s) (m.minimize.klass c.1) =
        m.classIndex (m.detTran s (m.klass c.1)) := by
      rw [hklass]
      exact detTran_of_entry (m := m.minimize) (entry_classTable h hs hk)
    show m.minimize.run (m.minimize.detTran _ _) x = _
    rw [hnext]
    exact ih (h.row_of_mem_keys hs hk).2

theorem accessible_minimize (h : m.Deterministic) (hacc : m.Accessible) :
    m.minimize.Accessible := by
  intro i hi
  have hi' : i < m.stateClasses.size := Nat.lt_of_lt_of_eq hi (size_classTable m)
  obtain ⟨s, hs, rfl⟩ := exists_classIndex h hi'
  obtain ⟨x, rfl⟩ := hacc s hs
  refine ⟨x, ?_⟩
  have hrun := run_minimize h h.size_pos x
  rwa [(classIndex_zero h).1] at hrun

theorem canonize_eq_some {maxSize : Nat} (h : m.canonize maxSize = some d) :
    ∃ c, m.determine maxSize = some c ∧ c.minimize = d := Option.map_eq_some_iff.mp h

theorem deterministic_canonize (hmark : m.Marked) {maxSize : Nat}
    (h : m.canonize maxSize = some d) : d.Deterministic := by
  obtain ⟨c, hc, rfl⟩ := canonize_eq_some h
  exact deterministic_minimize (deterministic_determine hmark hc)

theorem lang_canonize_eq (hm : m.Valid) (hmark : m.Marked) {maxSize : Nat}
    (h : m.canonize maxSize = some d) : d.lang = m.lang := by
  obtain ⟨c, hc, rfl⟩ := canonize_eq_some h
  rw [lang_minimize_eq (deterministic_determine hmark hc), lang_determine_eq hm hc]

/-- No deterministic automaton of the language has fewer states. -/
theorem size_canonize_le (hm : m.Valid) (hd : m.determined = false) {maxSize : Nat}
    (h : m.canonize maxSize = some d) {other : Fsm} (hother : other.Deterministic)
    (hlang : other.lang = m.lang) : d.size ≤ other.size := by
  have hmark := marked_of_determined_eq_false hd
  have hdet := deterministic_canonize hmark h
  have hlang' := lang_canonize_eq hm hmark h
  obtain ⟨c, hc, rfl⟩ := canonize_eq_some h
  have hcdet := deterministic_determine hmark hc
  refine hdet.size_le (accessible_minimize hcdet (accessible_determine hd hc)) ?_ hother
    (hlang.trans hlang'.symm)
  intro i j hi hj
  exact eq_of_acceptsFrom_minimize hcdet hi hj

end Minimized

/-- Only sets of states are reached. -/
theorem subset_range_of_reached (h : m.Valid) {q : StatesSet} (hq : m.determineTask.Reached q) :
    q ⊆ Finset.range m.size := by
  induction hq with
  | initial => exact Finset.singleton_subset_iff.mpr (Finset.mem_range.mpr h.initial_lt)
  | @next q k _ _ _ _ =>
    intro t ht
    obtain ⟨s, -, hs⟩ := Finset.mem_biUnion.mp ht
    unfold destinations at hs
    cases hr : m.row s (m.translate k) with
    | none =>
      rw [hr] at hs
      exact absurd hs (Finset.notMem_empty t)
    | some tos =>
      rw [hr] at hs
      exact Finset.mem_range.mpr (h.entries_lt s _ tos hr t hs)

/-! ## An automaton with a state too many -/

def seekNext (s : Nat) (c : Letter) : Nat := if c = (byte 0x61).1 then min (s + 1) 2 else s

/-- The letter 'a', and the others. -/
def seekLetters : LettersTbl :=
  allLetters.foldl (Partition.append fun c d => c = (byte 0x61).1 ↔ d = (byte 0x61).1)
    Partition.empty

theorem sound_seekLetters : Partition.Sound
    (fun c d => c = (byte 0x61).1 ↔ d = (byte 0x61).1) (fun c => c ≠ epsilon) [] seekLetters := by
  have h : Partition.Sound (fun c d => c = (byte 0x61).1 ↔ d = (byte 0x61).1)
      (fun c => c ∈ allLetters) [] seekLetters :=
    Partition.sound_ofItems (by simp)
      (by simp only [decide_eq_true_eq]; exact fun _ _ h => h.symm) nodup_allLetters
  have hD : (fun c => c ∈ allLetters) = fun c : Letter => c ≠ epsilon := by
    funext c
    exact propext mem_allLetters
  rw [hD] at h
  exact h

/-- Reads letters up to the first 'a', and any letters behind it.  Two of the states
accept everything. -/
def seek : Fsm where
  transitions := [0, 1, 2].map fun s c =>
    if seekLetters.set.any fun k => k.key = c then some {seekNext s c} else none
  initial := 0
  final := {1, 2}
  letters := seekLetters
  sparsed := true
  determined := false
  isAlternative := false

theorem row_seek {s : Nat} (hs : s < 3) (c : Letter) :
    seek.row s c = if seekLetters.set.any fun k => k.key = c then some {seekNext s c} else none := by
  have hcases : s = 0 ∨ s = 1 ∨ s = 2 := by omega
  rcases hcases with rfl | rfl | rfl <;> rfl

theorem any_seekLetters_iff (c : Letter) :
    (seekLetters.set.any fun k => k.key = c) = true ↔ c ∈ seek.keys := by
  rw [List.any_eq_true]
  simp only [decide_eq_true_eq]
  exact List.mem_map.symm

theorem row_seek_of_mem {s : Nat} (hs : s < 3) {k : Letter} (hk : k ∈ seek.keys) :
    seek.row s k = some {seekNext s k} := by
  rw [row_seek hs, if_pos ((any_seekLetters_iff k).mpr hk)]

theorem seekNext_lt {s : Nat} (hs : s < 3) (c : Letter) : seekNext s c < 3 := by
  unfold seekNext
  split <;> omega

theorem deterministic_seek : seek.Deterministic where
  initial := rfl
  size_pos := by decide
  final_lt s hs := by
    have hs' : s ∈ ({1, 2} : Finset Nat) := hs
    rw [Finset.mem_insert, Finset.mem_singleton] at hs'
    show s < 3
    omega
  letters := ⟨_, sound_seekLetters⟩
  inv_epsilon := Partition.ofItems_inv_of_notMem _ fun h => mem_allLetters.mp h rfl
  next s hs k hk := ⟨_, seekNext_lt hs k, row_seek_of_mem hs hk⟩
  bare s c hc := by
    rcases Nat.lt_or_ge s 3 with hs | hs
    · rw [row_seek hs, if_neg fun h => hc ((any_seekLetters_iff c).mp h)]
    · rw [row_of_size_le hs]
      rfl
  alternative := rfl

theorem detTran_seek {s : Nat} (hs : s < 3) {k : Letter} (hk : k ∈ seek.keys) :
    seek.detTran s k = seekNext s k := by
  refine detTran_of_entry ?_
  unfold entry
  rw [row_seek_of_mem hs hk, Option.getD_some]

/-- Behind an 'a' every word is accepted. -/
theorem acceptsFrom_seek {s : Nat} (hs : s = 1 ∨ s = 2) : acceptsFrom seek.nfa s = ⊤ := by
  have hrun : ∀ (x : List Input) (s : Nat), s = 1 ∨ s = 2 → seek.run s x ∈ seek.final := by
    intro x
    induction x with
    | nil =>
      intro s hs
      show s ∈ ({1, 2} : Finset Nat)
      rw [Finset.mem_insert, Finset.mem_singleton]
      exact hs
    | cons c x ih =>
      intro s hs
      have hk := klass_mem_keys sound_seekLetters (m := seek) c.2
      refine ih _ ?_
      show seek.detTran s (seek.klass c.1) = 1 ∨ seek.detTran s (seek.klass c.1) = 2
      rw [detTran_seek (by omega) hk]
      unfold seekNext
      split <;> omega
  ext x
  rw [deterministic_seek.mem_acceptsFrom_iff_run (show s < 3 by omega)]
  exact ⟨fun _ => trivial, fun _ => hrun x s hs⟩

section Decided

variable [StdPartition Nat]

/-- What it takes for a regular expression to be too complicated. -/
theorem overfull_of_canonize_eq_none (h : m.canonize 0 = none) :
    m.removeEpsilons.determineTask.Overfull 200001 := by
  have hdet : m.determine 0 = none := Option.map_eq_none_iff.mp h
  unfold determine at hdet
  split at hdet
  · exact absurd hdet (Option.some_ne_none m)
  · exact Task.determine_eq_none_iff.mp (Option.map_eq_none_iff.mp hdet)

/-- An automaton with few enough states is not too complicated. -/
theorem canonize_ne_none (hm : m.Valid) (hsize : 2 ^ m.size ≤ 200001) : m.canonize 0 ≠ none := by
  intro hnone
  obtain ⟨l, hnodup, hlength, hreached⟩ := overfull_of_canonize_eq_none hnone
  have hsub : l.toFinset ⊆ (Finset.range m.size).powerset := by
    intro q hq
    have hle := subset_range_of_reached hm.removeEpsilons (hreached q (List.mem_toFinset.mp hq))
    rw [(removeEpsilons_spec hm).1] at hle
    exact Finset.mem_powerset.mpr hle
  have hcard := Finset.card_le_card hsub
  rw [List.toFinset_card_of_nodup hnodup, Finset.card_powerset, Finset.card_range, hlength] at hcard
  omega

theorem canonize_eq_none_iff (hd : m.determined = false) :
    m.canonize 0 = none ↔ m.removeEpsilons.determineTask.Overfull 200001 := by
  refine ⟨overfull_of_canonize_eq_none, fun h => ?_⟩
  have hnone := Task.determine_eq_none_iff.mpr h
  unfold canonize determine
  rw [if_neg (hd ▸ Bool.false_ne_true)]
  exact Option.map_eq_none_iff.mpr (Option.map_eq_none_iff.mpr hnone)

end Decided

theorem canonize_smallest [StdPartition Nat] (hm : m.Valid) (hd : m.determined = false)
    {maxSize : Nat} (h : m.canonize maxSize = some d) : d.Deterministic ∧ d.lang = m.lang ∧
      ∀ other : Fsm, other.Deterministic → other.lang = m.lang → d.size ≤ other.size :=
  ⟨deterministic_canonize (marked_of_determined_eq_false hd) h,
    lang_canonize_eq hm (marked_of_determined_eq_false hd) h,
    fun _ hother hlang => size_canonize_le hm hd h hother hlang⟩

theorem canonize_smallest_seek : ∃ d, seek.canonize 0 = some d ∧ d.Deterministic ∧
    d.lang = seek.lang ∧
      ∀ other : Fsm, other.Deterministic → other.lang = seek.lang → d.size ≤ other.size := by
  have hvalid := deterministic_seek.valid
  obtain ⟨d, hd⟩ := Option.ne_none_iff_exists'.mp (canonize_ne_none hvalid (by decide))
  exact ⟨d, hd, canonize_smallest hvalid rfl hd⟩

/-- Each state of an automaton has one class of its language. -/
theorem existsUnique_class [StdPartition Nat] (hdet : m.Deterministic) {s : Nat} (hs : s < m.size) :
    ∃! i, i < m.minimize.size ∧ acceptsFrom m.minimize.nfa i = acceptsFrom m.nfa s := by
  have hclass : m.classIndex s < m.minimize.size :=
    Nat.lt_of_lt_of_eq (classIndex_lt hdet hs) (size_classTable m).symm
  refine ⟨m.classIndex s, ⟨hclass, acceptsFrom_minimize hdet hs⟩, fun i hi => ?_⟩
  exact eq_of_acceptsFrom_minimize hdet hi.1 hclass
    (hi.2.trans (acceptsFrom_minimize hdet hs).symm)

/-- Two states are merged: they have one class. -/
theorem existsUnique_class_seek :
    (∃! i, i < seek.minimize.size ∧ acceptsFrom seek.minimize.nfa i = acceptsFrom seek.nfa 1) ∧
      acceptsFrom seek.nfa 1 = acceptsFrom seek.nfa 2 :=
  ⟨existsUnique_class deterministic_seek (by decide),
    (acceptsFrom_seek (Or.inl rfl)).trans (acceptsFrom_seek (Or.inr rfl)).symm⟩

end Canonize

end Fsm
end Pire
end MediaServer
