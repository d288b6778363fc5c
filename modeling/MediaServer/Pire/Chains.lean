/-
Automata of patterns that are one character after the other.

Surrounded by anything, such an automaton is determined into about twice as many
states as the pattern has characters (`Chain.canonize_ne_none`): a set of states that is
reached is known by how far the text has been read into the pattern.
-/
import MediaServer.Automata.Occurrences
import MediaServer.Pire.Complement
import MediaServer.Pire.Iteration
import MediaServer.Pire.Strings

namespace MediaServer
namespace Pire
namespace Fsm

open Automata

/-- What a letter is read as at each place of a pattern. -/
def ClassAt (pattern : List (UInt8 → Prop)) (i : Nat) (c : Letter) : Prop :=
  ∃ P b, pattern[i]? = some P ∧ P b ∧ c = (byte b).1

/-- One state more than there are characters. -/
structure Chain (m : Fsm) (pattern : List (UInt8 → Prop)) : Prop where
  valid : m.Valid
  letters : m.letters = Partition.empty
  size : m.size = pattern.length + 1
  initial : m.initial = 0
  final : ∀ s, s ∈ m.final ↔ s = pattern.length
  targets : ∀ s c t, t ∈ m.targets s c ↔ ClassAt pattern s c ∧ t = s + 1

/-- Any two places of the pattern that share a letter share all of them. -/
def Uniform (pattern : List (UInt8 → Prop)) : Prop :=
  ∀ i j c, ClassAt pattern i c → ClassAt pattern j c → ∀ d, ClassAt pattern j d →
    ClassAt pattern i d

theorem ClassAt.lt {pattern : List (UInt8 → Prop)} {i : Nat} {c : Letter}
    (h : ClassAt pattern i c) : i < pattern.length := by
  obtain ⟨P, b, hP, -⟩ := h
  exact (List.getElem?_eq_some_iff.mp hP).1

theorem ClassAt.ne_epsilon {pattern : List (UInt8 → Prop)} {i : Nat} {c : Letter}
    (h : ClassAt pattern i c) : c ≠ epsilon := by
  obtain ⟨P, b, -, -, rfl⟩ := h
  exact (byte b).2

/-! ## Building -/

theorem chain_new : Chain new [] where
  valid := valid_new
  letters := rfl
  size := rfl
  initial := rfl
  final s := Finset.mem_singleton
  targets s c t := by
    refine iff_of_false (fun ht => ?_) fun h => absurd h.1.lt (Nat.not_lt_zero s)
    unfold targets at ht
    rw [row_new] at ht
    exact absurd ht (Finset.notMem_empty t)

/-- Strings of one byte make no state but the new end. -/
theorem size_appendSingles (e : Nat) (strings : List (List UInt8))
    (h : ∀ w ∈ strings, w.length = 1) (g : Growing) :
    (strings.foldl (Growing.appendString e) g).fsm.size = g.fsm.size := by
  induction strings generalizing g with
  | nil => rfl
  | cons w strings ih =>
    obtain ⟨b, rfl⟩ := List.length_eq_one_iff.mp (h w List.mem_cons_self)
    rw [List.foldl_cons, ih (fun v hv => h v (List.mem_cons_of_mem _ hv))]
    exact size_connectWhere _ _ _ _

theorem Chain.append {m j : Fsm} {pattern : List (UInt8 → Prop)} (h : Chain m pattern)
    {strings : List (List UInt8)} (hne : strings ≠ []) (hone : ∀ w ∈ strings, w.length = 1)
    (hj : m.appendStrings strings = some j) :
    Chain j (pattern ++ [fun b => [b] ∈ strings]) := by
  have hv := h.valid.appendStrings h.letters hne hj
  have hletters := appendStrings_letters h.valid h.letters hj
  have hsize : j.size = m.size + 1 := by
    unfold appendStrings at hj
    split at hj
    · exact absurd hj.symm (Option.some_ne_none j)
    · rw [← Option.some.inj hj]
      exact (size_appendSingles _ _ hone _).trans (size_grow m 1)
  obtain ⟨-, name, g, hg, rfl⟩ := appendStrings_eq_some h.valid h.letters hj
  have hgsize : g.fsm.size = m.size + 1 := hsize
  have hnode : ∀ s, ¬ Node m g s := by
    rintro s ⟨h1, h2⟩
    omega
  have hm := h.size
  refine ⟨hv, hletters, ?_, hg.initial.trans h.initial, fun s => ?_, fun s c t => ?_⟩
  · rw [hsize, hm, List.length_append]
    rfl
  · show s ∈ ({m.size} : Finset Nat) ↔ _
    rw [Finset.mem_singleton, hm, List.length_append]
    rfl
  · have hlast : ClassAt (pattern ++ [fun b => [b] ∈ strings]) s c ↔ ClassAt pattern s c ∨
        (s = pattern.length ∧ ∃ b, [b] ∈ strings ∧ c = (byte b).1) := by
      unfold ClassAt
      rcases Nat.lt_trichotomy s pattern.length with hs | hs | hs
      · rw [List.getElem?_append_left hs]
        exact (or_iff_left fun hc => absurd hc.1 (Nat.ne_of_lt hs)).symm
      · rw [hs, List.getElem?_append_right (Nat.le_refl _), Nat.sub_self,
          List.getElem?_eq_none (Nat.le_refl pattern.length)]
        simp [eq_comm]
      · rw [List.getElem?_append_right (Nat.le_of_lt hs), List.getElem?_eq_none (Nat.le_of_lt hs),
          List.getElem?_eq_none (by rw [List.length_singleton]; omega)]
        have : s ≠ pattern.length := Nat.ne_of_gt hs
        simp [this]
    rcases Nat.lt_or_ge s g.fsm.size with hs | hge
    · show t ∈ g.fsm.targets s c ↔ _
      rw [hg.targets s c t hs, h.targets, hlast]
      constructor
      · rintro (⟨hc, rfl⟩ | ⟨p, b, hat, hc, hl⟩)
        · exact ⟨Or.inl hc, rfl⟩
        · rcases hat with ⟨rfl, hf⟩ | ⟨-, hn, -⟩
          · rcases hl with ⟨rfl, hb⟩ | ⟨hn, -⟩
            · have hs' := (h.final s).mp hf
              exact ⟨Or.inr ⟨hs', b, hb, hc⟩, by rw [hm, hs']⟩
            · exact absurd hn (hnode t)
          · exact absurd hn (hnode s)
      · rintro ⟨hc | ⟨rfl, b, hb, hc⟩, rfl⟩
        · exact Or.inl ⟨hc, rfl⟩
        · exact Or.inr ⟨[], b, Or.inl ⟨rfl, (h.final _).mpr rfl⟩, hc, Or.inl ⟨hm.symm, hb⟩⟩
    · refine iff_of_false (fun ht => ?_) (fun ht => ?_)
      · have ht' : t ∈ g.fsm.targets s c := ht
        rw [targets_of_size_le hge] at ht'
        exact absurd ht' (Finset.notMem_empty t)
      · have hlt := ht.1.lt
        rw [List.length_append, List.length_singleton] at hlt
        omega

/-! ## Surrounding -/

section Surround

variable {m : Fsm} {pattern : List (UInt8 → Prop)}

/-- The steps of a surrounded chain: along the chain, the loop before it and the
way in, the loop behind it and the way out. -/
theorem Chain.mem_targets_surround (h : Chain m pattern) {s t : Nat} {c : Letter}
    (hs : s < pattern.length + 3) : t ∈ m.surround.targets s c ↔
      (ClassAt pattern s c ∧ t = s + 1) ∨
      (s = pattern.length + 1 ∧ (t = pattern.length + 1 ∨ (c = epsilon ∧ t = 0))) ∨
      (s = pattern.length + 2 ∧ t = pattern.length + 2) ∨
      (s = pattern.length ∧ c = epsilon ∧ t = pattern.length + 2) := by
  have hm := h.size
  have hsize := size_prependAnything m
  have hfinal : s ∈ m.prependAnything.final ↔ s = pattern.length := h.final s
  unfold surround
  rw [mem_targets_appendAnything h.valid.prependAnything (by omega), hfinal, hsize, hm]
  by_cases hlt : s < m.size + 1
  · rw [mem_targets_prependAnything h.valid hlt, h.targets, h.initial, hm]
    have hne : s ≠ pattern.length + 2 := by omega
    tauto
  · rw [targets_of_size_le (by rw [hsize]; omega)]
    have hclass : ¬ ClassAt pattern s c := fun hc => by
      have := hc.lt
      omega
    have h1 : s ≠ pattern.length + 1 := by omega
    have h2 : s ≠ pattern.length := by omega
    simp [hclass, h1, h2]

theorem Chain.silent_iff (h : Chain m pattern) {s t : Nat} (hs : s < pattern.length + 3) :
    Silent m.surround.nfa s t ↔ t = s ∨ (s = pattern.length + 1 ∧ t = 0) ∨
      (s = pattern.length ∧ t = pattern.length + 2) ∨
      (s = pattern.length + 1 ∧ pattern.length = 0 ∧ t = pattern.length + 2) := by
  have hstep : ∀ {s t}, s < pattern.length + 3 → (t ∈ m.surround.nfa.step s none ↔
      (s = pattern.length + 1 ∧ (t = pattern.length + 1 ∨ t = 0)) ∨
      (s = pattern.length + 2 ∧ t = pattern.length + 2) ∨
      (s = pattern.length ∧ t = pattern.length + 2)) := by
    intro s t hs
    rw [mem_step, h.mem_targets_surround hs]
    have hclass : ¬ ClassAt pattern s (label none) := fun hc => hc.ne_epsilon rfl
    have hnone : label none = epsilon := rfl
    tauto
  have hin : 0 ∈ m.surround.nfa.step (pattern.length + 1) none :=
    (hstep (by omega)).mpr (Or.inl ⟨rfl, Or.inr rfl⟩)
  have hout : pattern.length + 2 ∈ m.surround.nfa.step pattern.length none :=
    (hstep (by omega)).mpr (Or.inr (Or.inr ⟨rfl, rfl⟩))
  constructor
  · intro hp
    induction hp with
    | refl => exact Or.inl rfl
    | @tail u t _ step ih =>
      have hu : u < pattern.length + 3 := by omega
      have := (hstep hu).mp step
      omega
  · rintro (rfl | ⟨rfl, rfl⟩ | ⟨rfl, rfl⟩ | ⟨rfl, hn, rfl⟩)
    · exact Relation.ReflTransGen.refl
    · exact Relation.ReflTransGen.single hin
    · exact Relation.ReflTransGen.single hout
    · have hout' := hout
      rw [hn] at hin hout' ⊢
      exact (Relation.ReflTransGen.single hin).tail hout'

/-- The steps that are left without ε. -/
theorem Chain.mem_targets_removeEpsilons (h : Chain m pattern) {s t : Nat} {c : Letter}
    (hc : c ≠ epsilon) (hs : s < pattern.length + 3) :
    t ∈ m.surround.removeEpsilons.targets s c ↔
      (ClassAt pattern s c ∧ t = s + 1) ∨
      (s = pattern.length + 1 ∧ (t = pattern.length + 1 ∨ (ClassAt pattern 0 c ∧ t = 1))) ∨
      ((s = pattern.length ∨ s = pattern.length + 2 ∨
        (s = pattern.length + 1 ∧ pattern.length = 0)) ∧ t = pattern.length + 2) := by
  obtain ⟨-, -, -, hmem, -⟩ := removeEpsilons_spec h.valid.surround
  have hnot : ∀ i, pattern.length ≤ i → ¬ ClassAt pattern i c :=
    fun i hi hci => absurd hci.lt (Nat.not_lt.mpr hi)
  rw [hmem s c t hc]
  constructor
  · rintro ⟨u, hu, ht⟩
    rw [h.silent_iff hs] at hu
    have hu' : u < pattern.length + 3 := by omega
    rw [h.mem_targets_surround hu'] at ht
    rcases hu with rfl | ⟨rfl, rfl⟩ | ⟨rfl, rfl⟩ | ⟨rfl, hn, rfl⟩
    · tauto
    · rcases ht with ⟨hci, rfl⟩ | ht | ht | ht
      · exact Or.inr (Or.inl ⟨rfl, Or.inr ⟨hci, rfl⟩⟩)
      · omega
      · omega
      · exact absurd ht.2.1 hc
    · rcases ht with ⟨hci, -⟩ | ht | ht | ht
      · exact absurd hci (hnot _ (by omega))
      · omega
      · exact Or.inr (Or.inr ⟨Or.inl rfl, ht.2⟩)
      · omega
    · rcases ht with ⟨hci, -⟩ | ht | ht | ht
      · exact absurd hci (hnot _ (by omega))
      · omega
      · exact Or.inr (Or.inr ⟨Or.inr (Or.inr ⟨rfl, hn⟩), ht.2⟩)
      · omega
  · rintro (⟨hci, rfl⟩ | ⟨rfl, rfl | ⟨hci, rfl⟩⟩ | ⟨rfl | rfl | ⟨rfl, hn⟩, rfl⟩)
    · exact ⟨s, (h.silent_iff hs).mpr (Or.inl rfl),
        (h.mem_targets_surround hs).mpr (Or.inl ⟨hci, rfl⟩)⟩
    · exact ⟨_, (h.silent_iff hs).mpr (Or.inl rfl),
        (h.mem_targets_surround hs).mpr (Or.inr (Or.inl ⟨rfl, Or.inl rfl⟩))⟩
    · exact ⟨0, (h.silent_iff hs).mpr (Or.inr (Or.inl ⟨rfl, rfl⟩)),
        (h.mem_targets_surround (Nat.succ_pos _)).mpr (Or.inl ⟨hci, rfl⟩)⟩
    · exact ⟨_, (h.silent_iff hs).mpr (Or.inr (Or.inr (Or.inl ⟨rfl, rfl⟩))),
        (h.mem_targets_surround (Nat.lt_succ_self _)).mpr (Or.inr (Or.inr (Or.inl ⟨rfl, rfl⟩)))⟩
    · exact ⟨_, (h.silent_iff hs).mpr (Or.inl rfl),
        (h.mem_targets_surround hs).mpr (Or.inr (Or.inr (Or.inl ⟨rfl, rfl⟩)))⟩
    · exact ⟨_, (h.silent_iff hs).mpr (Or.inr (Or.inr (Or.inr ⟨rfl, hn, rfl⟩))),
        (h.mem_targets_surround (Nat.lt_succ_self _)).mpr (Or.inr (Or.inr (Or.inl ⟨rfl, rfl⟩)))⟩

/-! ## Determining -/

/-- The set of states behind a text: the loop before the chain, each place that
the text has been read up to, and the loop behind it if the end has been read. -/
def Behind (pattern : List (UInt8 → Prop)) (read : List Input) (through : Bool) (q : StatesSet) :
    Prop :=
  ∀ t, t ∈ q ↔ t = pattern.length + 1 ∨
    (0 < t ∧ t ≤ pattern.length ∧ Fits (fun i (a : Input) => ClassAt pattern i a.1) read t) ∨
    (through = true ∧ t = pattern.length + 2)

/-- One letter more is read. -/
theorem Chain.behind_next (h : Chain m pattern) {q q' : StatesSet} {read : List Input}
    {through : Bool} (hbehind : Behind pattern read through q) {a : Input}
    (hnext : ∀ t, t ∈ q' ↔ ∃ s ∈ q, t ∈ m.surround.removeEpsilons.targets s a.1) :
    ∃ through', Behind pattern (a :: read) through' q' := by
  obtain ⟨k, hne⟩ := a
  have hlt : ∀ s ∈ q, s < pattern.length + 3 := by
    intro s hs
    have := (hbehind s).mp hs
    omega
  set C : Nat → Input → Prop := fun i a => ClassAt pattern i a.1 with hC
  obtain ⟨through', hthrough⟩ : ∃ b : Bool,
      b = true ↔ through = true ∨ Fits C read pattern.length := by
    classical exact ⟨decide _, decide_eq_true_iff⟩
  refine ⟨through', fun t => ?_⟩
  rw [hnext, hthrough]
  constructor
  · rintro ⟨s, hs, ht⟩
    rw [h.mem_targets_removeEpsilons hne (hlt s hs)] at ht
    rcases ht with ⟨hci, rfl⟩ | ⟨-, rfl | ⟨hci, rfl⟩⟩ | ⟨hs', rfl⟩
    · have hs' := hci.lt
      rcases (hbehind s).mp hs with hs'' | ⟨hpos, -, hfits⟩ | ⟨-, hs''⟩
      · omega
      · exact Or.inr (Or.inl ⟨Nat.succ_pos s, hs', hci, hfits⟩)
      · omega
    · exact Or.inl rfl
    · exact Or.inr (Or.inl ⟨Nat.one_pos, hci.lt, hci, fits_zero read⟩)
    · refine Or.inr (Or.inr ⟨?_, rfl⟩)
      rcases hs' with rfl | rfl | ⟨rfl, hn⟩
      · rcases (hbehind _).mp hs with hs'' | ⟨-, -, hfits⟩ | ⟨-, hs''⟩
        · omega
        · exact Or.inr hfits
        · omega
      · rcases (hbehind _).mp hs with hs'' | ⟨-, hs'', -⟩ | ⟨hb, -⟩
        · omega
        · omega
        · exact Or.inl hb
      · rw [hn]
        exact Or.inr (fits_zero read)
  · have hloop : pattern.length + 1 ∈ q := (hbehind _).mpr (Or.inl rfl)
    have hstep : ∀ s t, s ∈ q → (ClassAt pattern s k ∧ t = s + 1 ∨
        (s = pattern.length + 1 ∧ (t = pattern.length + 1 ∨ (ClassAt pattern 0 k ∧ t = 1))) ∨
        ((s = pattern.length ∨ s = pattern.length + 2 ∨
          (s = pattern.length + 1 ∧ pattern.length = 0)) ∧ t = pattern.length + 2)) →
        ∃ s ∈ q, t ∈ m.surround.removeEpsilons.targets s k := fun s t hs ht =>
      ⟨s, hs, (h.mem_targets_removeEpsilons hne (hlt s hs)).mpr ht⟩
    rintro (rfl | ⟨hpos, hle, hfits⟩ | ⟨hb, rfl⟩)
    · exact hstep _ _ hloop (Or.inr (Or.inl ⟨rfl, Or.inl rfl⟩))
    · obtain ⟨i, rfl⟩ : ∃ i, t = i + 1 := ⟨t - 1, by omega⟩
      obtain ⟨hci, hread⟩ := fits_cons_succ.mp hfits
      rcases Nat.eq_zero_or_pos i with rfl | hi
      · exact hstep _ _ hloop (Or.inr (Or.inl ⟨rfl, Or.inr ⟨hci, rfl⟩⟩))
      · have hmem : i ∈ q :=
          (hbehind i).mpr (Or.inr (Or.inl ⟨hi, Nat.le_of_succ_le hle, hread⟩))
        exact hstep i _ hmem (Or.inl ⟨hci, rfl⟩)
    · rcases hb with hb | hfits
      · have hmem : pattern.length + 2 ∈ q := (hbehind _).mpr (Or.inr (Or.inr ⟨hb, rfl⟩))
        exact hstep _ _ hmem (Or.inr (Or.inr ⟨Or.inr (Or.inl rfl), rfl⟩))
      · rcases Nat.eq_zero_or_pos pattern.length with hn | hn
        · exact hstep _ _ hloop (Or.inr (Or.inr ⟨Or.inr (Or.inr ⟨rfl, hn⟩), rfl⟩))
        · have hmem : pattern.length ∈ q :=
            (hbehind pattern.length).mpr (Or.inr (Or.inl ⟨hn, Nat.le_refl _, hfits⟩))
          exact hstep pattern.length _ hmem (Or.inr (Or.inr ⟨Or.inl rfl, rfl⟩))

theorem Chain.behind_of_reached (h : Chain m pattern) {q : StatesSet}
    (hq : m.surround.removeEpsilons.determineTask.Reached q) :
    ∃ read through, Behind pattern read through q := by
  obtain ⟨eq, hletters⟩ := removeEpsilons_letters m.surround
  have hinitial : m.surround.removeEpsilons.initial = pattern.length + 1 :=
    (removeEpsilons_spec h.valid.surround).2.1.trans h.size
  induction hq with
  | initial =>
    refine ⟨[], false, fun t => ?_⟩
    show t ∈ ({m.surround.removeEpsilons.initial} : StatesSet) ↔ _
    rw [hinitial, Finset.mem_singleton]
    refine (or_iff_left ?_).symm
    rintro (⟨hpos, -, hfits⟩ | ⟨hf, -⟩)
    · obtain ⟨i, rfl⟩ := Nat.exists_eq_succ_of_ne_zero (Nat.ne_of_gt hpos)
      exact hfits
    · exact Bool.false_ne_true hf
  | @next q k _ _ hk ih =>
    obtain ⟨read, through, hbehind⟩ := ih
    have hk' : k ∈ m.surround.removeEpsilons.keys := hk
    have hne : k ≠ epsilon := (key_of_mem_keys hletters hk').1
    refine ⟨⟨k, hne⟩ :: read, h.behind_next hbehind fun t => ?_⟩
    show t ∈ q.biUnion _ ↔ _
    rw [Finset.mem_biUnion]
    simp only [destinations_of_mem_keys hletters _ hk']

/-- Sets that have been read up to the same place are the same. -/
theorem behind_unique (hC : Uniform pattern)
    {read read' : List Input} {through : Bool} {q q' : StatesSet}
    (h : Behind pattern read through q) (h' : Behind pattern read' through q')
    (hl : longest (fun i (a : Input) => ClassAt pattern i a.1) pattern.length read =
      longest (fun i (a : Input) => ClassAt pattern i a.1) pattern.length read') : q = q' := by
  ext t
  rw [h t, h' t]
  refine or_congr_right (or_congr_left (and_congr_right fun _ => and_congr_right fun hle => ?_))
  exact fits_iff_of_longest_eq (fun i j a hi hj b hb => hC i j a.1 hi hj b.1 hb) hl hle

/-- A surrounded chain is determined into no more than two states for each place
of the pattern. -/
theorem Chain.length_le_of_reached (h : Chain m pattern) (hC : Uniform pattern)
    {l : List StatesSet} (hnodup : l.Nodup)
    (hreached : ∀ q ∈ l, m.surround.removeEpsilons.determineTask.Reached q) :
    l.length ≤ 2 * (pattern.length + 1) := by
  choose read through hbehind using fun i : Fin l.length =>
    h.behind_of_reached (hreached (l.get i) (List.get_mem l i))
  let place : Fin l.length → Fin (pattern.length + 1) × Bool := fun i =>
    (⟨longest (fun i (a : Input) => ClassAt pattern i a.1) pattern.length (read i),
      Nat.lt_succ_of_le (longest_le _ _ _)⟩, through i)
  have hinj : Function.Injective place := by
    intro i j heq
    obtain ⟨hl, ht⟩ := Prod.mk.inj heq
    have hj := hbehind j
    rw [← ht] at hj
    exact List.nodup_iff_injective_get.mp hnodup
      (behind_unique hC (hbehind i) hj (congrArg Fin.val hl))
  have hcard := Fintype.card_le_of_injective place hinj
  rw [Fintype.card_prod, Fintype.card_fin, Fintype.card_fin, Fintype.card_bool] at hcard
  omega

theorem Chain.canonize_ne_none [StdPartition Nat] (h : Chain m pattern) (hC : Uniform pattern)
    (hlen : 2 * (pattern.length + 1) ≤ 200001) : m.surround.canonize 0 ≠ none := by
  intro hnone
  obtain ⟨l, hnodup, hlength, hreached⟩ := overfull_of_canonize_eq_none hnone
  have hle := h.length_le_of_reached hC hnodup hreached
  omega

theorem Chain.size_canonize [StdPartition Nat] (h : Chain m pattern) (hC : Uniform pattern)
    {d : Fsm} (hd : m.surround.canonize 0 = some d) : d.size ≤ 2 * (pattern.length + 1) := by
  have hv := h.valid.surround
  have hmark := marked_of_determined_eq_false (m := m.surround) rfl
  obtain ⟨c, hc, rfl⟩ := canonize_eq_some hd
  have hle := size_canonize_le hv rfl hd (deterministic_determine hmark hc)
    (lang_determine_eq hv hc)
  rcases determine_eq_some hc with ⟨hdet, -⟩ | ⟨n, found, hf, hover⟩
  · exact absurd hdet Bool.false_ne_true
  · have hexp := Task.explored_of_determine hf
    rw [hover.size] at hle
    exact hle.trans (h.length_le_of_reached hC hexp.nodup hexp.reached)

end Surround

end Fsm
end Pire
end MediaServer
