/-
`Fsm::Minimize`: states that accept the same words become one.

The classes of the states are split until no letter leads from one class to two
(`refineClasses`).  The automaton over the classes has the language of the one
over the states (`lang_minimize_eq`), and no two of its states have the same
language (`eq_of_acceptsFrom_minimize`).
-/
import MediaServer.Pire.Deterministic
import MediaServer.Pire.Split

namespace MediaServer
namespace Pire
namespace Fsm

open Automata

/-! ## The code -/

/-- The table of a deterministic automaton, with zero where it has no entry. -/
def detTran (m : Fsm) (s : Nat) (c : Letter) : Nat := (m.entry s c).sort.headD 0

/-- `MinimizeEquality` of the final states -/
def sameFinality (m : Fsm) (a b : Nat) : Bool := decide (a ∈ m.final) == decide (b ∈ m.final)

/-- `MinimizeEquality` of the classes so far -/
def sameClass (m : Fsm) (clMap : List Nat) (a b : Nat) : Bool :=
  clMap.getD a 0 == clMap.getD b 0 &&
    m.keys.all fun k => clMap.getD (m.detTran a k) 0 == clMap.getD (m.detTran b k) 0

def stateClassMap (m : Fsm) (last : Partition Nat) : List Nat :=
  (List.range m.size).map last.representative

section Loop

variable [StdPartition Nat]

/-- The loop of `Minimize`: `UpdateStateClassMap`, then `Split` if it says that
the map has changed. -/
def refineClasses (m : Fsm) : Nat → List Nat → Partition Nat → Partition Nat
  | 0, _, last => last
  | fuel + 1, clMap, last =>
    if m.stateClassMap last = clMap then last
    else refineClasses m fuel (m.stateClassMap last)
      (last.split (m.sameClass (m.stateClassMap last)))

/-- The classes that the loop ends with.  It ends before it is out of fuel. -/
def stateClasses (m : Fsm) : Partition Nat :=
  m.refineClasses (m.size + 1) (List.replicate m.size 0)
    ((List.range m.size).foldl (Partition.append m.sameFinality) Partition.empty)

/-- The number of a state's class. -/
def classIndex (m : Fsm) (s : Nat) : Nat := (m.stateClasses.index s).getD 0

/-- The entries of all rows, for the classes. -/
def classConnections (m : Fsm) : List (Nat × Letter × Nat) :=
  (List.range m.size).flatMap fun s => (epsilon :: allLetters).filterMap fun c =>
    (m.row s c).map fun tos => (m.classIndex s, c, m.classIndex (tos.sort.headD 0))

/-- The new start is a class's key where the others are numbers.  It is the same
for zero, and that is where a deterministic automaton starts. -/
def minimize (m : Fsm) : Fsm :=
  { connectAll
      { m with
        transitions := List.replicate m.stateClasses.size emptyRow
        final := ((Finset.range m.size).filter (· ∈ m.final)).image m.classIndex }
      m.classConnections with
    initial := m.stateClasses.representative m.initial
    isAlternative := false }

end Loop

/-! ## Steps of a deterministic automaton -/

namespace Deterministic

variable {m : Fsm}

theorem row_of_mem_keys (h : m.Deterministic) {s : Nat} (hs : s < m.size) {k : Letter}
    (hk : k ∈ m.keys) : m.row s k = some {m.detTran s k} ∧ m.detTran s k < m.size := by
  obtain ⟨t, ht, hr⟩ := h.next s hs k hk
  have ht' : m.detTran s k = t := by
    unfold detTran entry
    rw [hr, Option.getD_some, Finset.sort_singleton]
    rfl
  rw [ht']
  exact ⟨hr, ht⟩

/-- The one state that `s` goes to. -/
theorem targets_eq (h : m.Deterministic) {s : Nat} (hs : s < m.size) {c : Letter}
    (hc : c ≠ epsilon) :
    m.targets s c = {m.detTran s (m.klass c)} ∧ m.detTran s (m.klass c) < m.size := by
  obtain ⟨eq, hsound⟩ := h.letters
  obtain ⟨hr, hlt⟩ := h.row_of_mem_keys hs (klass_mem_keys hsound hc)
  refine ⟨?_, hlt⟩
  unfold targets
  rw [hr]
  rfl

theorem step_eq (h : m.Deterministic) {s : Nat} (hs : s < m.size) (c : Input) :
    m.nfa.step s (some c) = {m.detTran s (m.klass c.1)} := by
  ext t
  rw [mem_step, show label (some c) = c.1 from rfl, (h.targets_eq hs c.2).1]
  simp

end Deterministic

/-! ## The classes -/

/-- The states of one class are alike in what has been looked at, and states of
one language are in one class. -/
structure Refining (m : Fsm) (clMap : List Nat) (last : Partition Nat) : Prop where
  sound : ∃ eq, Partition.Sound eq (· < m.size) [] last
  finality : ∀ a b, a < m.size → b < m.size → last.inv a = last.inv b →
    (a ∈ m.final ↔ b ∈ m.final)
  /-- Once the map is that of the classes, no letter leads from one to two. -/
  stable : m.stateClassMap last = clMap → ∀ a b, a < m.size → b < m.size →
    last.inv a = last.inv b → ∀ k ∈ m.keys,
      last.inv (m.detTran a k) = last.inv (m.detTran b k)
  /-- The class of the start has index zero. -/
  zero : ∃ k ∈ last.set, k.key = 0 ∧ k.idx = 0
  coarse : ∀ a b, a < m.size → b < m.size → acceptsFrom m.nfa a = acceptsFrom m.nfa b →
    last.inv a = last.inv b

section Refining

variable {m : Fsm} {clMap : List Nat} {last : Partition Nat}

theorem stateClassMap_getD {s : Nat} (hs : s < m.size) :
    (m.stateClassMap last).getD s 0 = last.representative s := by
  unfold stateClassMap
  rw [List.getD_eq_getElem?_getD, List.getElem?_map, List.getElem?_range hs]
  rfl

theorem Refining.representative_eq_iff (h : Refining m clMap last) {a b : Nat} (ha : a < m.size)
    (hb : b < m.size) :
    last.representative a = last.representative b ↔ last.inv a = last.inv b := by
  obtain ⟨eq, hsound⟩ := h.sound
  obtain ⟨k, -, -, hk⟩ := hsound.exists_klass ha
  obtain ⟨j, -, -, hj⟩ := hsound.exists_klass hb
  unfold Partition.representative
  rw [hk, hj, Option.getD_some, Option.getD_some, Option.some.injEq]

theorem sameFinality_iff {a b : Nat} :
    m.sameFinality a b = true ↔ (a ∈ m.final ↔ b ∈ m.final) := by
  unfold sameFinality
  rw [beq_iff_eq, decide_eq_decide]

theorem sameClass_iff {a b : Nat} : m.sameClass clMap a b = true ↔
    clMap.getD a 0 = clMap.getD b 0 ∧
      ∀ k ∈ m.keys, clMap.getD (m.detTran a k) 0 = clMap.getD (m.detTran b k) 0 := by
  unfold sameClass
  simp

theorem sameClass_refl (m : Fsm) (clMap : List Nat) (a : Nat) : m.sameClass clMap a a = true :=
  sameClass_iff.mpr ⟨rfl, fun _ _ => rfl⟩

theorem sameClass_symm (m : Fsm) (clMap : List Nat) (a b : Nat)
    (h : m.sameClass clMap a b = true) : m.sameClass clMap b a = true := by
  obtain ⟨h1, h2⟩ := sameClass_iff.mp h
  exact sameClass_iff.mpr ⟨h1.symm, fun k hk => (h2 k hk).symm⟩

theorem sameClass_trans (m : Fsm) (clMap : List Nat) (a b c : Nat)
    (h : m.sameClass clMap a b = true) (h' : m.sameClass clMap b c = true) :
    m.sameClass clMap a c = true := by
  obtain ⟨h1, h2⟩ := sameClass_iff.mp h
  obtain ⟨h1', h2'⟩ := sameClass_iff.mp h'
  exact sameClass_iff.mpr ⟨h1.trans h1', fun k hk => (h2 k hk).trans (h2' k hk)⟩

/-- States of one language go to states of one language. -/
theorem acceptsFrom_detTran (hdet : m.Deterministic) {a b : Nat} (ha : a < m.size)
    (hb : b < m.size) (hab : acceptsFrom m.nfa a = acceptsFrom m.nfa b) {k : Letter}
    (hk : k ∈ m.keys) :
    acceptsFrom m.nfa (m.detTran a k) = acceptsFrom m.nfa (m.detTran b k) := by
  obtain ⟨eq, hsound⟩ := hdet.letters
  have hk' := klass_of_mem_keys hsound hk
  set c : Input := ⟨k, (key_of_mem_keys hsound hk).1⟩ with hc
  have hstep : ∀ s, s < m.size → ∀ x, c :: x ∈ acceptsFrom m.nfa s ↔
      x ∈ acceptsFrom m.nfa (m.detTran s k) := by
    intro s hs x
    rw [acceptsFrom_of_letter hdet.no_silent, hdet.step_eq hs c, hc, hk']
    simp only [Set.mem_singleton_iff, exists_eq_left]
  ext x
  rw [← hstep a ha, ← hstep b hb, hab]

theorem final_iff_of_acceptsFrom_eq (hdet : m.Deterministic) {a b : Nat}
    (hab : acceptsFrom m.nfa a = acceptsFrom m.nfa b) : a ∈ m.final ↔ b ∈ m.final := by
  have ha := nil_mem_acceptsFrom hdet.no_silent (s := a)
  rw [hab, nil_mem_acceptsFrom hdet.no_silent] at ha
  exact ha.symm

/-- The classes before the first split. -/
theorem refining_start (hdet : m.Deterministic) : Refining m (List.replicate m.size 0)
    ((List.range m.size).foldl (Partition.append m.sameFinality) Partition.empty) := by
  have hrefl : ∀ a, m.sameFinality a a = true := fun a => sameFinality_iff.mpr Iff.rfl
  have hsymm : ∀ a b, m.sameFinality a b = true → m.sameFinality b a = true :=
    fun a b h => sameFinality_iff.mpr (sameFinality_iff.mp h).symm
  have htrans : ∀ a b c, m.sameFinality a b = true → m.sameFinality b c = true →
      m.sameFinality a c = true :=
    fun a b c h h' => sameFinality_iff.mpr ((sameFinality_iff.mp h).trans (sameFinality_iff.mp h'))
  have hsound := Partition.sound_ofItems hrefl hsymm (List.nodup_range (n := m.size))
  have hD : (fun s => s ∈ List.range m.size) = (· < m.size) := by
    funext s
    exact propext List.mem_range
  rw [hD] at hsound
  set last := (List.range m.size).foldl (Partition.append m.sameFinality) Partition.empty
  have hinv : ∀ a b, a < m.size → b < m.size →
      (last.inv a = last.inv b ↔ (a ∈ m.final ↔ b ∈ m.final)) := by
    intro a b ha hb
    rw [hsound.inv_eq_iff hsymm htrans ha hb, sameFinality_iff]
  refine ⟨⟨_, hsound⟩, fun a b ha hb => (hinv a b ha hb).mp, ?_, ?_, ?_⟩
  · -- a map of zeros only is that of a single class
    intro hzero a b ha hb _ k hk
    have hrep : ∀ s, s < m.size → last.inv s = some 0 := by
      intro s hs
      obtain ⟨j, -, -, hj⟩ := hsound.exists_klass hs
      have h0 : (m.stateClassMap last).getD s 0 = _ := stateClassMap_getD hs
      rw [hzero, List.getD_eq_getElem?_getD, List.getElem?_replicate, if_pos hs] at h0
      unfold Partition.representative at h0
      rw [hj, Option.getD_some, Option.getD_some] at h0
      rw [hj, ← h0]
    rw [hrep _ (hdet.row_of_mem_keys ha hk).2, hrep _ (hdet.row_of_mem_keys hb hk).2]
  · obtain ⟨n, hn⟩ := Nat.exists_eq_succ_of_ne_zero (Nat.ne_of_gt hdet.size_pos)
    have hrange : List.range m.size = 0 :: (List.range n).map Nat.succ := by
      rw [hn, List.range_succ_eq_map]
    show ∃ k ∈ ((List.range m.size).foldl _ Partition.empty).set, _
    rw [hrange]
    exact Partition.ofItems_first _ 0 _
  · intro a b ha hb hab
    exact (hinv a b ha hb).mpr (final_iff_of_acceptsFrom_eq hdet hab)

theorem Refining.inv_eq_of_sameClass (h : Refining m clMap last) {a b : Nat} (ha : a < m.size)
    (hb : b < m.size) (hab : m.sameClass (m.stateClassMap last) a b = true) :
    last.inv a = last.inv b := by
  have hmap := (sameClass_iff.mp hab).1
  rw [stateClassMap_getD ha, stateClassMap_getD hb] at hmap
  exact (h.representative_eq_iff ha hb).mp hmap

/-- There are no more classes than states. -/
theorem Refining.size_le (h : Refining m clMap last) : last.size ≤ m.size := by
  obtain ⟨eq, hsound⟩ := h.sound
  have hsub : last.set.map Klass.key ⊆ List.range m.size := by
    intro s hs
    obtain ⟨k, hk, rfl⟩ := List.mem_map.mp hs
    exact List.mem_range.mpr ((hsound.cover _).mpr ⟨k, hk, hsound.key_mem hk⟩)
  have hle := (List.subperm_of_subset hsound.keys hsub).length_le
  rwa [List.length_map, List.length_range] at hle

variable [StdPartition Nat]

/-- What a split does to the classes. -/
theorem Refining.split_spec (h : Refining m clMap last) :
    Partition.Sound (m.sameClass (m.stateClassMap last)) (· < m.size) []
        (last.split (m.sameClass (m.stateClassMap last))) ∧
      ∀ j ∈ last.set, ∃ i ∈ (last.split (m.sameClass (m.stateClassMap last))).set,
        i.key = j.key ∧ i.idx = j.idx := by
  obtain ⟨eq, hsound⟩ := h.sound
  exact hsound.split (sameClass_refl m _) (sameClass_symm m _)
    fun a b ha hb => h.inv_eq_of_sameClass ha hb

/-- One split. -/
theorem Refining.split (hdet : m.Deterministic) (h : Refining m clMap last) :
    Refining m (m.stateClassMap last) (last.split (m.sameClass (m.stateClassMap last))) := by
  obtain ⟨hsound, hkeys⟩ := h.split_spec
  set clMap' := m.stateClassMap last with hclMap
  set last' := last.split (m.sameClass clMap')
  have hinv : ∀ a b, a < m.size → b < m.size →
      (last'.inv a = last'.inv b ↔ m.sameClass clMap' a b = true) :=
    fun a b ha hb => hsound.inv_eq_iff (sameClass_symm m _) (sameClass_trans m _) ha hb
  have hnext : ∀ s, s < m.size → ∀ k ∈ m.keys, m.detTran s k < m.size :=
    fun s hs k hk => (hdet.row_of_mem_keys hs hk).2
  have hrefining : ∀ a b, a < m.size → b < m.size → last'.inv a = last'.inv b →
      last.inv a = last.inv b :=
    fun a b ha hb hab => h.inv_eq_of_sameClass ha hb ((hinv a b ha hb).mp hab)
  refine ⟨⟨_, hsound⟩, ?_, ?_, ?_, ?_⟩
  · intro a b ha hb hab
    exact h.finality a b ha hb (hrefining a b ha hb hab)
  · intro hsame a b ha hb hab k hk
    have hk' := (sameClass_iff.mp ((hinv a b ha hb).mp hab)).2 k hk
    rw [← hsame, stateClassMap_getD (hnext a ha k hk), stateClassMap_getD (hnext b hb k hk)] at hk'
    obtain ⟨j, -, -, hj⟩ := hsound.exists_klass (hnext a ha k hk)
    obtain ⟨i, -, -, hi⟩ := hsound.exists_klass (hnext b hb k hk)
    unfold Partition.representative at hk'
    rw [hj, hi, Option.getD_some, Option.getD_some] at hk'
    rw [hj, hi, hk']
  · obtain ⟨k, hk, hkey, hidx⟩ := h.zero
    obtain ⟨i, hi, hik, hii⟩ := hkeys k hk
    exact ⟨i, hi, hik.trans hkey, hii.trans hidx⟩
  · intro a b ha hb hab
    rw [hinv a b ha hb, sameClass_iff]
    have hone : ∀ s t, s < m.size → t < m.size → acceptsFrom m.nfa s = acceptsFrom m.nfa t →
        clMap'.getD s 0 = clMap'.getD t 0 := by
      intro s t hs ht hst
      rw [hclMap, stateClassMap_getD hs, stateClassMap_getD ht]
      exact (h.representative_eq_iff hs ht).mpr (h.coarse s t hs ht hst)
    refine ⟨hone a b ha hb hab, fun k hk => ?_⟩
    exact hone _ _ (hnext a ha k hk) (hnext b hb k hk) (acceptsFrom_detTran hdet ha hb hab hk)

/-- A split that makes no class more leaves the map as it is. -/
theorem Refining.stateClassMap_split (h : Refining m clMap last)
    (hsize : (last.split (m.sameClass (m.stateClassMap last))).size ≤ last.size) :
    m.stateClassMap (last.split (m.sameClass (m.stateClassMap last))) = m.stateClassMap last := by
  obtain ⟨eq, hsound⟩ := h.sound
  refine List.map_congr_left fun s hs => ?_
  unfold Partition.representative
  rw [hsound.split_inv_of_size_le (sameClass_refl m _) (sameClass_symm m _)
    (fun a b ha hb => h.inv_eq_of_sameClass ha hb) hsize (List.mem_range.mp hs)]

/-- The loop ends with classes that are stable. -/
theorem Refining.refineClasses (hdet : m.Deterministic) (fuel : Nat) (h : Refining m clMap last)
    (hfuel : (m.stateClassMap last = clMap ∧ 1 ≤ fuel) ∨ m.size + 2 ≤ fuel + last.size) :
    ∃ clMap', Refining m clMap' (m.refineClasses fuel clMap last) ∧
      m.stateClassMap (m.refineClasses fuel clMap last) = clMap' := by
  induction fuel generalizing clMap last with
  | zero =>
    have hle := h.size_le
    omega
  | succ fuel ih =>
    unfold Fsm.refineClasses
    by_cases hsame : m.stateClassMap last = clMap
    · rw [if_pos hsame]
      exact ⟨clMap, h, hsame⟩
    · rw [if_neg hsame]
      refine ih (h.split hdet) ?_
      have hroom := hfuel.resolve_left fun hl => hsame hl.1
      have hle := h.size_le
      rcases Nat.lt_or_ge last.size (last.split (m.sameClass (m.stateClassMap last))).size with
        hlt | hge
      · right
        omega
      · left
        exact ⟨h.stateClassMap_split hge, by omega⟩

/-- The classes in the end. -/
theorem refining_stateClasses (hdet : m.Deterministic) :
    ∃ clMap, Refining m clMap m.stateClasses ∧ m.stateClassMap m.stateClasses = clMap := by
  have hstart := refining_start hdet
  refine hstart.refineClasses hdet (m.size + 1) (Or.inr ?_)
  obtain ⟨eq, hsound⟩ := hstart.sound
  obtain ⟨k, hk, -, -⟩ := hsound.exists_klass (c := 0) hdet.size_pos
  have hpos := List.length_pos_of_mem hk
  unfold Partition.size
  omega

end Refining

/-! ## The automaton over the classes -/

section Minimize

theorem row_replicate (n s : Nat) (c : Letter) :
    ((List.replicate n emptyRow)[s]?.getD emptyRow) c = none := by
  rw [List.getElem?_replicate]
  split <;> rfl

variable [StdPartition Nat] {m : Fsm}

/-- Two states are in one class exactly when they accept the same words. -/
theorem stateClasses_inv_eq_iff (hdet : m.Deterministic) {a b : Nat} (ha : a < m.size)
    (hb : b < m.size) : m.stateClasses.inv a = m.stateClasses.inv b ↔
      acceptsFrom m.nfa a = acceptsFrom m.nfa b := by
  obtain ⟨clMap, h, hstable⟩ := refining_stateClasses hdet
  refine ⟨fun hab => ?_, h.coarse a b ha hb⟩
  ext x
  induction x generalizing a b with
  | nil =>
    rw [nil_mem_acceptsFrom hdet.no_silent, nil_mem_acceptsFrom hdet.no_silent]
    exact h.finality a b ha hb hab
  | cons c x ih =>
    obtain ⟨eq, hsound⟩ := hdet.letters
    have hk := klass_mem_keys hsound c.2
    rw [acceptsFrom_of_letter hdet.no_silent, acceptsFrom_of_letter hdet.no_silent,
      hdet.step_eq ha, hdet.step_eq hb]
    simp only [Set.mem_singleton_iff, exists_eq_left]
    exact ih (hdet.row_of_mem_keys ha hk).2 (hdet.row_of_mem_keys hb hk).2
      (h.stable hstable a b ha hb hab _ hk)

theorem stateClasses_sound (hdet : m.Deterministic) :
    ∃ eq, Partition.Sound eq (· < m.size) [] m.stateClasses := by
  obtain ⟨clMap, h, -⟩ := refining_stateClasses hdet
  exact h.sound

theorem classIndex_spec (hdet : m.Deterministic) {s : Nat} (hs : s < m.size) :
    ∃ k ∈ m.stateClasses.set, m.stateClasses.inv s = some k.key ∧ m.classIndex s = k.idx := by
  obtain ⟨eq, hsound⟩ := stateClasses_sound hdet
  obtain ⟨k, hk, hsk, hi⟩ := hsound.exists_klass hs
  refine ⟨k, hk, hi, ?_⟩
  unfold classIndex
  rw [hsound.index_eq hk hsk, Option.getD_some]

theorem classIndex_lt (hdet : m.Deterministic) {s : Nat} (hs : s < m.size) :
    m.classIndex s < m.stateClasses.size := by
  obtain ⟨eq, hsound⟩ := stateClasses_sound hdet
  obtain ⟨k, hk, -, hidx⟩ := classIndex_spec hdet hs
  rw [hidx]
  exact hsound.idx_lt hk

theorem classIndex_eq_iff (hdet : m.Deterministic) {a b : Nat} (ha : a < m.size)
    (hb : b < m.size) :
    m.classIndex a = m.classIndex b ↔ acceptsFrom m.nfa a = acceptsFrom m.nfa b := by
  obtain ⟨eq, hsound⟩ := stateClasses_sound hdet
  obtain ⟨k, hk, hki, hkx⟩ := classIndex_spec hdet ha
  obtain ⟨j, hj, hji, hjx⟩ := classIndex_spec hdet hb
  rw [← stateClasses_inv_eq_iff hdet ha hb, hki, hji, hkx, hjx, Option.some.injEq]
  constructor
  · intro hidx
    rw [hsound.idx_inj hk hj hidx]
  · intro hkey
    rw [hsound.eq_of_key hk hj hkey]

theorem exists_classIndex (hdet : m.Deterministic) {i : Nat} (hi : i < m.stateClasses.size) :
    ∃ s < m.size, m.classIndex s = i := by
  obtain ⟨eq, hsound⟩ := stateClasses_sound hdet
  obtain ⟨k, hk, rfl⟩ := hsound.exists_idx hi
  have hs : k.key < m.size := (hsound.cover _).mpr ⟨k, hk, hsound.key_mem hk⟩
  refine ⟨k.key, hs, ?_⟩
  unfold classIndex
  rw [hsound.index_eq hk (hsound.key_mem hk), Option.getD_some]

/-- The class of the start is the start of the classes. -/
theorem classIndex_zero (hdet : m.Deterministic) :
    m.classIndex 0 = 0 ∧ m.stateClasses.representative m.initial = 0 := by
  obtain ⟨clMap, h, -⟩ := refining_stateClasses hdet
  obtain ⟨eq, hsound⟩ := h.sound
  obtain ⟨k, hk, hkey, hidx⟩ := h.zero
  have hmem := hsound.key_mem hk
  have hinv := hsound.inv_key hk
  rw [hkey] at hmem hinv
  unfold classIndex Partition.representative
  rw [hsound.index_eq hk hmem, Option.getD_some, hdet.initial, hinv, Option.getD_some]
  exact ⟨hidx, rfl⟩

theorem classConnections_of_mem {i j : Nat} {c : Letter} (h : (i, c, j) ∈ m.classConnections) :
    ∃ s < m.size, ∃ tos, m.row s c = some tos ∧ i = m.classIndex s ∧
      j = m.classIndex (m.detTran s c) := by
  unfold classConnections at h
  obtain ⟨s, hs, h⟩ := List.mem_flatMap.mp h
  obtain ⟨c', -, h⟩ := List.mem_filterMap.mp h
  obtain ⟨tos, hr, he⟩ := Option.map_eq_some_iff.mp h
  simp only [Prod.mk.injEq] at he
  obtain ⟨rfl, rfl, rfl⟩ := he
  refine ⟨s, List.mem_range.mp hs, tos, hr, rfl, ?_⟩
  unfold detTran entry
  rw [hr, Option.getD_some]

theorem mem_classConnections (hdet : m.Deterministic) {i j : Nat} {c : Letter} :
    (i, c, j) ∈ m.classConnections ↔
      c ∈ m.keys ∧ ∃ s < m.size, i = m.classIndex s ∧ j = m.classIndex (m.detTran s c) := by
  constructor
  · intro h
    obtain ⟨s, hs, tos, hr, hi, hj⟩ := classConnections_of_mem h
    refine ⟨?_, s, hs, hi, hj⟩
    by_contra hc
    rw [hdet.bare s c hc] at hr
    exact absurd hr.symm (Option.some_ne_none tos)
  · rintro ⟨hk, s, hs, rfl, rfl⟩
    obtain ⟨eq, hsound⟩ := hdet.letters
    unfold classConnections
    refine List.mem_flatMap.mpr ⟨s, List.mem_range.mpr hs, List.mem_filterMap.mpr ⟨c, ?_, ?_⟩⟩
    · exact List.mem_cons_of_mem _ (mem_allLetters.mpr (key_of_mem_keys hsound hk).1)
    · rw [(hdet.row_of_mem_keys hs hk).1, Option.map_some, Finset.sort_singleton]
      rfl

/-- The table over the classes before its start is set. -/
def classTable (m : Fsm) : Fsm :=
  connectAll
    { m with
      transitions := List.replicate m.stateClasses.size emptyRow
      final := ((Finset.range m.size).filter (· ∈ m.final)).image m.classIndex }
    m.classConnections

theorem size_classTable (m : Fsm) : m.classTable.size = m.stateClasses.size :=
  (size_connectAll _ _).trans List.length_replicate

theorem mem_entry_classTable (hdet : m.Deterministic) {i j : Nat} {c : Letter}
    (hi : i < m.stateClasses.size) : j ∈ m.classTable.entry i c ↔
      c ∈ m.keys ∧ ∃ s < m.size, i = m.classIndex s ∧ j = m.classIndex (m.detTran s c) := by
  unfold classTable
  rw [mem_entry_connectAll _ _ (Nat.lt_of_lt_of_eq hi List.length_replicate.symm),
    mem_classConnections hdet]
  have hempty : ∀ (f : Finset Nat), j ∉ entry { m with
      transitions := List.replicate m.stateClasses.size emptyRow, final := f } i c := by
    intro f
    unfold entry row
    rw [row_replicate]
    exact Finset.notMem_empty j
  simp only [hempty, false_or]

/-- A class goes where the states in it go. -/
theorem entry_classTable (hdet : m.Deterministic) {s : Nat} (hs : s < m.size) {k : Letter}
    (hk : k ∈ m.keys) :
    m.classTable.entry (m.classIndex s) k = {m.classIndex (m.detTran s k)} := by
  ext j
  rw [mem_entry_classTable hdet (classIndex_lt hdet hs), Finset.mem_singleton]
  constructor
  · rintro ⟨-, s', hs', hclass, rfl⟩
    have hnext : ∀ {s}, s < m.size → m.detTran s k < m.size :=
      fun hs => (hdet.row_of_mem_keys hs hk).2
    rw [classIndex_eq_iff hdet (hnext hs') (hnext hs)]
    exact acceptsFrom_detTran hdet hs' hs ((classIndex_eq_iff hdet hs' hs).mp hclass.symm) hk
  · rintro rfl
    exact ⟨hk, s, hs, rfl, rfl⟩

theorem classTable_fields (m : Fsm) : m.classTable.letters = m.letters ∧
    m.classTable.final = ((Finset.range m.size).filter (· ∈ m.final)).image m.classIndex ∧
    m.classTable.determined = m.determined := by
  obtain ⟨-, hf, hl, hd, -⟩ := connectAll_fields
    { m with
      transitions := List.replicate m.stateClasses.size emptyRow
      final := ((Finset.range m.size).filter (· ∈ m.final)).image m.classIndex } m.classConnections
  exact ⟨hl, hf, hd⟩

theorem deterministic_minimize (hdet : m.Deterministic) : m.minimize.Deterministic where
  initial := (classIndex_zero hdet).2
  size_pos := by
    show 0 < m.classTable.size
    rw [size_classTable]
    exact Nat.lt_of_le_of_lt (Nat.zero_le _) (classIndex_lt hdet hdet.size_pos)
  final_lt i hi := by
    show i < m.classTable.size
    have hf : i ∈ m.classTable.final := hi
    rw [(classTable_fields m).2.1, Finset.mem_image] at hf
    obtain ⟨s, hs, rfl⟩ := hf
    rw [size_classTable]
    exact classIndex_lt hdet (Finset.mem_range.mp (Finset.mem_filter.mp hs).1)
  letters := by
    show ∃ eq, Partition.Sound eq _ [] m.classTable.letters
    rw [(classTable_fields m).1]
    exact hdet.letters
  inv_epsilon := by
    show m.classTable.letters.inv epsilon = none
    rw [(classTable_fields m).1]
    exact hdet.inv_epsilon
  next i hi k hk := by
    have hi' : i < m.classTable.size := hi
    rw [size_classTable] at hi'
    obtain ⟨s, hs, rfl⟩ := exists_classIndex hdet hi'
    have hk' : k ∈ m.keys := by
      have hk'' : k ∈ m.classTable.letters.set.map Klass.key := hk
      rwa [(classTable_fields m).1] at hk''
    refine ⟨m.classIndex (m.detTran s k), ?_, ?_⟩
    · show _ < m.classTable.size
      rw [size_classTable]
      exact classIndex_lt hdet (hdet.row_of_mem_keys hs hk').2
    · show m.classTable.row _ k = _
      exact row_of_entry_singleton (entry_classTable hdet hs hk')
  bare i c hc := by
    have hc' : c ∉ m.keys := by
      intro hk
      refine hc ?_
      show c ∈ m.classTable.letters.set.map Klass.key
      rw [(classTable_fields m).1]
      exact hk
    show m.classTable.row i c = none
    unfold classTable
    rw [row_connectAll_of_notMem]
    · exact row_replicate _ _ _
    · intro t ht
      exact hc' ((mem_classConnections hdet).mp ht).1
  alternative := rfl

/-- A class accepts what the states in it accept. -/
theorem acceptsFrom_minimize (hdet : m.Deterministic) {s : Nat} (hs : s < m.size) :
    acceptsFrom m.minimize.nfa (m.classIndex s) = acceptsFrom m.nfa s := by
  have hmin := deterministic_minimize hdet
  have hklass : ∀ c, m.minimize.klass c = m.klass c := by
    intro c
    show (m.classTable.letters.inv c).getD c = _
    rw [(classTable_fields m).1]
    rfl
  refine acceptsFrom_image (P := (· < m.size)) ?_ ?_ ?_ hs
  · intro s o t hs ht
    cases o with
    | none =>
      rw [hdet.no_silent s] at ht
      exact absurd ht (Set.notMem_empty t)
    | some c =>
      rw [hdet.step_eq hs] at ht
      rw [Set.mem_singleton_iff.mp ht]
      exact (hdet.targets_eq hs c.2).2
  · intro s o hs
    cases o with
    | none => rw [hmin.no_silent, hdet.no_silent, Set.image_empty]
    | some c =>
      obtain ⟨eq, hsound⟩ := hdet.letters
      have hentry := entry_classTable hdet hs (klass_mem_keys hsound c.2)
      rw [hdet.step_eq hs, Set.image_singleton]
      ext t
      rw [mem_step]
      show t ∈ m.classTable.entry (m.classIndex s) (m.minimize.klass c.1) ↔ _
      rw [hklass, hentry, Finset.mem_singleton, Set.mem_singleton_iff]
  · intro s hs
    rw [mem_accept, mem_accept]
    show m.classIndex s ∈ m.classTable.final ↔ _
    rw [(classTable_fields m).2.1, Finset.mem_image]
    constructor
    · rintro ⟨s', hs', hclass⟩
      obtain ⟨hs', hf⟩ := Finset.mem_filter.mp hs'
      have hsame := (classIndex_eq_iff hdet (Finset.mem_range.mp hs') hs).mp hclass
      exact (final_iff_of_acceptsFrom_eq hdet hsame).mp hf
    · intro hf
      exact ⟨s, Finset.mem_filter.mpr ⟨Finset.mem_range.mpr hs, hf⟩, rfl⟩

theorem lang_minimize_eq (hdet : m.Deterministic) : m.minimize.lang = m.lang := by
  have hinitial : m.minimize.initial = 0 := (classIndex_zero hdet).2
  rw [lang_eq, lang_eq, hinitial, hdet.initial]
  have h := acceptsFrom_minimize hdet hdet.size_pos
  rwa [(classIndex_zero hdet).1] at h

/-- No two states of the result accept the same words. -/
theorem eq_of_acceptsFrom_minimize (hdet : m.Deterministic) {i j : Nat}
    (hi : i < m.minimize.size) (hj : j < m.minimize.size)
    (hij : acceptsFrom m.minimize.nfa i = acceptsFrom m.minimize.nfa j) : i = j := by
  have hsize : m.minimize.size = m.stateClasses.size := size_classTable m
  rw [hsize] at hi hj
  obtain ⟨a, ha, rfl⟩ := exists_classIndex hdet hi
  obtain ⟨b, hb, rfl⟩ := exists_classIndex hdet hj
  rw [acceptsFrom_minimize hdet ha, acceptsFrom_minimize hdet hb] at hij
  exact (classIndex_eq_iff hdet ha hb).mpr hij

end Minimize

end Fsm
end Pire
end MediaServer
