/-
Strings put behind an automaton, as a tree that shares their beginnings.

`AppendStrings` gives every proper beginning of a string one new state and leads
the last byte of each string to one new end.  In the proof each new state has a
name, the bytes read on the way to it; `Trie` says that the steps are those of
the names, and `lang_appendStrings` that the words of the result are a word of
the old automaton and one of the strings.
-/
import MediaServer.Pire.Operations

namespace MediaServer
namespace Pire
namespace Fsm

open Automata Computability

/-! ## The tree -/

/-- The automaton under construction, and the states made so far: `startLtr` by
the first byte, `ltr` by the state before and the byte.  No state is `0`. -/
structure Growing where
  fsm : Fsm
  startLtr : UInt8 → Nat
  ltr : Nat → UInt8 → Nat

namespace Growing

/-- The sets of used steps that `determined` is to be kept by are never filled. -/
def undetermined (g : Growing) (fsm : Fsm) : Growing :=
  { g with fsm := { fsm with determined := false } }

/-- The state that a first byte leads to. -/
def firstJump (g : Growing) (b : UInt8) : Growing × Nat :=
  if g.startLtr b ≠ 0 then (g, g.startLtr b)
  else
    let fresh := g.fsm.size
    ({ g.undetermined ((g.fsm.grow 1).connectFinal fresh (byte b).1) with
      startLtr := Function.update g.startLtr b fresh }, fresh)

/-- The state that a byte leads to from `s`. -/
def newState (g : Growing) (s : Nat) (b : UInt8) : Growing × Nat :=
  if g.ltr s b ≠ 0 then (g, g.ltr s b)
  else
    let fresh := g.fsm.size
    ({ g.undetermined ((g.fsm.grow 1).connect s fresh (byte b).1) with
      ltr := Function.update g.ltr s (Function.update (g.ltr s) b fresh) }, fresh)

/-- What is left of a string, from the state `s` to the end `e`. -/
def rest (e : Nat) : Growing → Nat → List UInt8 → Growing
  | g, _, [] => g
  | g, s, [last] => g.undetermined (g.fsm.connect s e (byte last).1)
  | g, s, b :: c :: str => rest e (g.newState s b).1 (g.newState s b).2 (c :: str)

def appendString (e : Nat) (g : Growing) : List UInt8 → Growing
  | [] => g
  | [b] => g.undetermined (g.fsm.connectFinal e (byte b).1)
  | b :: c :: str => rest e (g.firstJump b).1 (g.firstJump b).2 (c :: str)

end Growing

/-- `AppendStrings`: nothing where it throws. -/
def appendStrings (m : Fsm) (strings : List (List UInt8)) : Option Fsm :=
  if strings.any List.isEmpty then none
  else
    let g := strings.foldl (Growing.appendString m.size) ⟨m.grow 1, fun _ => 0, fun _ _ => 0⟩
    some { g.fsm with final := {m.size} }

/-- The words that are spelt by one of the strings. -/
def spelt (strings : List UInt8 → Prop) : Language Input := {x | ∃ w, strings w ∧ x = w.map byte}

/-! ## Names -/

theorem byte_inj {a b : UInt8} (h : (byte a).1 = (byte b).1) : a = b :=
  UInt8.toNat_inj.mp (Fin.mk.inj h)

/-- A state of the tree. -/
def Node (m : Fsm) (g : Growing) (s : Nat) : Prop := m.size < s ∧ s < g.fsm.size

/-- The states that `p` leads to from the final states of `m`. -/
def At (m : Fsm) (name : Nat → List UInt8) (g : Growing) (p : List UInt8) (s : Nat) : Prop :=
  (p = [] ∧ s ∈ m.final) ∨ (p ≠ [] ∧ Node m g s ∧ name s = p)

/-- Where `b` leads behind `p`: to the end of a string, or on in the tree. -/
def Leads (m : Fsm) (name : Nat → List UInt8) (strings : List UInt8 → Prop) (g : Growing)
    (p : List UInt8) (b : UInt8) (t : Nat) : Prop :=
  (t = m.size ∧ strings (p ++ [b])) ∨ (Node m g t ∧ name t = p ++ [b])

/-- What the table says of the state behind `p` and `b`. -/
def Tabled (m : Fsm) (name : Nat → List UInt8) (g : Growing) (p : List UInt8) (b : UInt8)
    (k : Nat) : Prop :=
  (k = 0 ∧ ∀ t, Node m g t → name t ≠ p ++ [b]) ∨ (Node m g k ∧ name k = p ++ [b])

/-- The tree of `strings` behind `m`. -/
structure Trie (m : Fsm) (name : Nat → List UInt8) (strings : List UInt8 → Prop)
    (g : Growing) : Prop where
  size_lt : m.size < g.fsm.size
  initial : g.fsm.initial = m.initial
  final : g.fsm.final = m.final
  letters : g.fsm.letters = Partition.empty
  valid : g.fsm.Valid
  targets : ∀ s d t, s < g.fsm.size → (t ∈ g.fsm.targets s d ↔ t ∈ m.targets s d ∨
    ∃ p b, At m name g p s ∧ d = (byte b).1 ∧ Leads m name strings g p b t)
  name_ne : ∀ s, Node m g s → name s ≠ []
  name_inj : ∀ s t, Node m g s → Node m g t → name s = name t → s = t
  parent : ∀ s p b, Node m g s → name s = p ++ [b] → p ≠ [] → ∃ t, Node m g t ∧ name t = p
  before : ∀ p b, strings (p ++ [b]) → p ≠ [] → ∃ t, Node m g t ∧ name t = p
  not_nil : ¬ strings []
  startLtr : ∀ b, Tabled m name g [] b (g.startLtr b)
  ltr : ∀ s b, Node m g s → Tabled m name g (name s) b (g.ltr s b)
  fresh : ∀ s b, g.fsm.size ≤ s → g.ltr s b = 0

namespace Trie

variable {m : Fsm} {name : Nat → List UInt8} {strings : List UInt8 → Prop} {g : Growing}

theorem at_lt (h : Trie m name strings g) (hm : m.Valid) {p : List UInt8} {s : Nat}
    (hs : At m name g p s) : s < g.fsm.size := by
  rcases hs with ⟨-, hs⟩ | ⟨-, hs, -⟩
  · exact Nat.lt_trans (hm.final_lt s hs) h.size_lt
  · exact hs.2

/-- A state stands behind one beginning only. -/
theorem at_unique (hm : m.Valid) {p q : List UInt8} {s : Nat} (hp : At m name g p s)
    (hq : At m name g q s) : p = q := by
  have hlt := hm.final_lt s
  rcases hp with ⟨rfl, hp⟩ | ⟨-, hp, rfl⟩
  · rcases hq with ⟨rfl, -⟩ | ⟨-, hq, -⟩
    · rfl
    · exact absurd (hlt hp) (Nat.lt_asymm hq.1)
  · rcases hq with ⟨-, hq⟩ | ⟨-, -, hq⟩
    · exact absurd (hlt hq) (Nat.lt_asymm hp.1)
    · exact hq

/-- The start of the tree: its end, and nothing that leads there. -/
theorem start (hm : m.Valid) (hletters : m.letters = Partition.empty) :
    Trie m (fun _ => []) (fun _ => False) ⟨m.grow 1, fun _ => 0, fun _ _ => 0⟩ := by
  have hnode : ∀ s, ¬ Node m ⟨m.grow 1, fun _ => 0, fun _ _ => 0⟩ s := by
    rintro s ⟨h1, h2⟩
    have h3 : s < m.size + 1 := by rw [← size_grow m 1]; exact h2
    omega
  refine
    { size_lt := by rw [size_grow]; exact Nat.lt_succ_self _
      initial := rfl
      final := rfl
      letters := hletters
      valid := hm.grow 1
      targets := fun s d t _ => ?_
      name_ne := fun s hs => absurd hs (hnode s)
      name_inj := fun s _ hs => absurd hs (hnode s)
      parent := fun s _ _ hs => absurd hs (hnode s)
      before := fun _ _ hs => hs.elim
      not_nil := id
      startLtr := fun b => Or.inl ⟨rfl, fun t ht => absurd ht (hnode t)⟩
      ltr := fun s _ hs => absurd hs (hnode s)
      fresh := fun _ _ _ => rfl }
  rw [targets_grow]
  constructor
  · exact Or.inl
  · rintro (ht | ⟨p, b, -, -, ⟨-, hf⟩ | ⟨ht, -⟩⟩)
    · exact ht
    · exact hf.elim
    · exact absurd ht (hnode t)

/-- One byte more that leads to the end: one string more. -/
theorem finish (h : Trie m name strings g) {p : List UInt8} {b : UInt8}
    {P : Nat → Bool} (hP : ∀ s, P s = true ↔ At m name g p s)
    (hp : p ≠ [] → ∃ t, Node m g t ∧ name t = p) :
    Trie m name (fun w => strings w ∨ w = p ++ [b])
      (g.undetermined (g.fsm.connectWhere P m.size (byte b).1)) := by
  have hsize : (g.fsm.connectWhere P m.size (byte b).1).size = g.fsm.size :=
    size_connectWhere _ _ _ _
  have hnode : ∀ s, Node m (g.undetermined (g.fsm.connectWhere P m.size (byte b).1)) s ↔
      Node m g s := by
    intro s
    unfold Node
    show m.size < s ∧ s < (g.fsm.connectWhere P m.size (byte b).1).size ↔ _
    rw [hsize]
  have hfree := free_of_letters_empty h.letters (byte b).1
  have hv := h.valid.connectWhere P h.size_lt hfree
  refine
    { size_lt := hsize ▸ h.size_lt
      initial := h.initial
      final := h.final
      letters := h.letters
      valid := hv.withEnds rfl hv.initial_lt hv.final_lt false
      targets := fun s d t hs => ?_
      name_ne := fun s hs => h.name_ne s ((hnode s).mp hs)
      name_inj := fun s t hs ht => h.name_inj s t ((hnode s).mp hs) ((hnode t).mp ht)
      parent := fun s q c hs hn hq => ?_
      before := fun q c hs hq => ?_
      not_nil := ?_
      startLtr := fun c => ?_
      ltr := fun s c hs => ?_
      fresh := fun s c hs => h.fresh s c (hsize ▸ hs) }
  · have hs' : s < g.fsm.size := hsize ▸ hs
    show t ∈ (g.fsm.connectWhere P m.size (byte b).1).targets s d ↔ _
    rw [mem_targets_connectWhere hfree hs', h.targets s d t hs', hP s]
    unfold Leads At
    simp only [hnode]
    constructor
    · rintro ((ht | ⟨q, c, hq, hd, hl⟩) | ⟨hq, rfl, rfl⟩)
      · exact Or.inl ht
      · refine Or.inr ⟨q, c, hq, hd, hl.imp_left fun hl => ⟨hl.1, Or.inl hl.2⟩⟩
      · exact Or.inr ⟨p, b, hq, rfl, Or.inl ⟨rfl, Or.inr rfl⟩⟩
    · rintro (ht | ⟨q, c, hq, hd, ⟨ht, hw | hw⟩ | hl⟩)
      · exact Or.inl (Or.inl ht)
      · exact Or.inl (Or.inr ⟨q, c, hq, hd, Or.inl ⟨ht, hw⟩⟩)
      · obtain ⟨rfl, hc⟩ := List.append_inj' hw rfl
        obtain rfl : c = b := by simpa using hc
        exact Or.inr ⟨hq, hd, ht⟩
      · exact Or.inl (Or.inr ⟨q, c, hq, hd, Or.inr hl⟩)
  · simp only [hnode]
    exact h.parent s q c ((hnode s).mp hs) hn hq
  · simp only [hnode]
    rcases hs with hs | hs
    · exact h.before q c hs hq
    · obtain ⟨rfl, -⟩ := List.append_inj' hs rfl
      exact hp hq
  · rintro (hs | hs)
    · exact h.not_nil hs
    · exact absurd hs.symm (by simp)
  · unfold Tabled
    simp only [hnode]
    exact h.startLtr c
  · unfold Tabled
    simp only [hnode]
    exact h.ltr s c ((hnode s).mp hs)

/-! ## One state more -/

section Extend

variable {p : List UInt8} {b : UInt8} {P : Nat → Bool} {j : Growing}

theorem node_iff (h : Trie m name strings g) (hsize : j.fsm.size = g.fsm.size + 1) {s : Nat} :
    Node m j s ↔ Node m g s ∨ s = g.fsm.size := by
  have hlt := h.size_lt
  unfold Node
  rw [hsize]
  omega

/-- The new state takes no name away. -/
theorem name_of_node {s : Nat} (hs : Node m g s) (w : List UInt8) :
    Function.update name g.fsm.size w s = name s :=
  Function.update_of_ne (Nat.ne_of_lt hs.2) _ _

theorem leads_iff (h : Trie m name strings g) (hsize : j.fsm.size = g.fsm.size + 1)
    {q : List UInt8} {c : UInt8} {t : Nat} :
    Leads m (Function.update name g.fsm.size (p ++ [b])) strings j q c t ↔
      Leads m name strings g q c t ∨ (t = g.fsm.size ∧ q = p ∧ c = b) := by
  unfold Leads
  rw [h.node_iff hsize]
  constructor
  · rintro (ht | ⟨ht | rfl, hn⟩)
    · exact Or.inl (Or.inl ht)
    · rw [name_of_node ht] at hn
      exact Or.inl (Or.inr ⟨ht, hn⟩)
    · rw [Function.update_self] at hn
      obtain ⟨rfl, hc⟩ := List.append_inj' hn rfl
      exact Or.inr ⟨rfl, rfl, by simpa using hc.symm⟩
  · rintro ((ht | ⟨ht, hn⟩) | ⟨rfl, rfl, rfl⟩)
    · exact Or.inl ht
    · exact Or.inr ⟨Or.inl ht, (name_of_node ht _).trans hn⟩
    · exact Or.inr ⟨Or.inr rfl, Function.update_self _ _ _⟩

/-- No table mentions the new state before, so that its name is new to each entry
that is kept. -/
theorem tabled_kept (h : Trie m name strings g) (hsize : j.fsm.size = g.fsm.size + 1)
    {q : List UInt8} {c : UInt8} {k : Nat} (hqc : ¬ (q = p ∧ c = b))
    (hk : Tabled m name g q c k) :
    Tabled m (Function.update name g.fsm.size (p ++ [b])) j q c k := by
  rcases hk with ⟨rfl, hk⟩ | ⟨hn, hk⟩
  · refine Or.inl ⟨rfl, fun t ht => ?_⟩
    rcases (h.node_iff hsize).mp ht with ht | rfl
    · rw [name_of_node ht]
      exact hk t ht
    · rw [Function.update_self]
      intro heq
      obtain ⟨rfl, hc⟩ := List.append_inj' heq rfl
      exact hqc ⟨rfl, by simpa using hc.symm⟩
  · exact Or.inr ⟨(h.node_iff hsize).mpr (Or.inl hn), (name_of_node hn _).trans hk⟩

theorem tabled_new (h : Trie m name strings g) (hsize : j.fsm.size = g.fsm.size + 1) :
    Tabled m (Function.update name g.fsm.size (p ++ [b])) j p b g.fsm.size :=
  Or.inr ⟨(h.node_iff hsize).mpr (Or.inr rfl), Function.update_self _ _ _⟩

/-- Nothing stands where there is no state yet. -/
theorem not_at_of_le (h : Trie m name strings g) (hm : m.Valid) {q : List UInt8} {s : Nat}
    (hs : g.fsm.size ≤ s) : ¬ At m name g q s :=
  fun hq => absurd (h.at_lt hm hq) (Nat.not_lt.mpr hs)

/-- Behind the new state there is nothing: its beginnings would have been there. -/
theorem not_leads_new (h : Trie m name strings g) (hnew : ∀ t, Node m g t → name t ≠ p ++ [b])
    {c : UInt8} {t : Nat} : ¬ Leads m name strings g (p ++ [b]) c t := by
  have hnil : p ++ [b] ≠ [] := List.append_ne_nil_of_right_ne_nil _ (List.cons_ne_nil _ _)
  rintro (⟨-, hw⟩ | ⟨ht, hn⟩)
  · obtain ⟨u, hu, hname⟩ := h.before _ c hw hnil
    exact hnew u hu hname
  · obtain ⟨u, hu, hname⟩ := h.parent t _ c ht hn hnil
    exact hnew u hu hname

theorem targets_extend (h : Trie m name strings g) (hm : m.Valid)
    (hP : ∀ s, P s = true ↔ At m name g p s)
    (hnew : ∀ t, Node m g t → name t ≠ p ++ [b]) (hsize : j.fsm.size = g.fsm.size + 1)
    {s t : Nat} {d : Letter} (hs : s < g.fsm.size + 1)
    (hstep : t ∈ j.fsm.targets s d ↔
      t ∈ g.fsm.targets s d ∨ (P s = true ∧ d = (byte b).1 ∧ t = g.fsm.size)) :
    t ∈ j.fsm.targets s d ↔ t ∈ m.targets s d ∨
      ∃ q c, At m (Function.update name g.fsm.size (p ++ [b])) j q s ∧ d = (byte c).1 ∧
        Leads m (Function.update name g.fsm.size (p ++ [b])) strings j q c t := by
  rw [hstep, hP]
  simp only [h.leads_iff hsize]
  rcases Nat.lt_or_ge s g.fsm.size with hlt | hge
  · have hat : ∀ q, At m (Function.update name g.fsm.size (p ++ [b])) j q s ↔
        At m name g q s := by
      intro q
      have hns : Node m j s ↔ Node m g s := by
        rw [h.node_iff hsize]
        exact or_iff_left (Nat.ne_of_lt hlt)
      unfold At
      rw [hns, Function.update_of_ne (Nat.ne_of_lt hlt)]
    rw [h.targets s d t hlt]
    simp only [hat]
    constructor
    · rintro ((ht | ⟨q, c, hq, hd, hl⟩) | ⟨hq, hd, ht⟩)
      · exact Or.inl ht
      · exact Or.inr ⟨q, c, hq, hd, Or.inl hl⟩
      · exact Or.inr ⟨p, b, hq, hd, Or.inr ⟨ht, rfl, rfl⟩⟩
    · rintro (ht | ⟨q, c, hq, hd, hl | ⟨ht, rfl, rfl⟩⟩)
      · exact Or.inl (Or.inl ht)
      · exact Or.inl (Or.inr ⟨q, c, hq, hd, hl⟩)
      · exact Or.inr ⟨hq, hd, ht⟩
  · -- the new state itself: nothing leads on from it yet
    obtain rfl : s = g.fsm.size := Nat.le_antisymm (Nat.le_of_lt_succ hs) hge
    rw [targets_of_size_le (Nat.le_refl _), targets_of_size_le (Nat.le_of_lt h.size_lt)]
    constructor
    · rintro (ht | ⟨hq, -, -⟩)
      · exact Or.inl ht
      · exact absurd hq (h.not_at_of_le hm (Nat.le_refl _))
    · rintro (ht | ⟨q, c, hq, -, hl⟩)
      · exact Or.inl ht
      obtain rfl : q = p ++ [b] := by
        rcases hq with ⟨-, hf⟩ | ⟨-, -, hq⟩
        · exact absurd (hm.final_lt _ hf) (Nat.lt_asymm h.size_lt)
        · exact hq.symm.trans (Function.update_self _ _ _)
      rcases hl with hl | ⟨-, hq, -⟩
      · exact absurd hl (h.not_leads_new hnew)
      · exact absurd (congrArg List.length hq) (by simp)

theorem name_inj_extend (h : Trie m name strings g)
    (hnew : ∀ t, Node m g t → name t ≠ p ++ [b]) (hsize : j.fsm.size = g.fsm.size + 1)
    {s t : Nat} (hs : Node m j s) (ht : Node m j t)
    (heq : Function.update name g.fsm.size (p ++ [b]) s =
      Function.update name g.fsm.size (p ++ [b]) t) : s = t := by
  rcases (h.node_iff hsize).mp hs with hs | rfl
  · rw [name_of_node hs] at heq
    rcases (h.node_iff hsize).mp ht with ht | rfl
    · rw [name_of_node ht] at heq
      exact h.name_inj s t hs ht heq
    · exact absurd (heq.trans (Function.update_self _ _ _)) (hnew s hs)
  · rw [Function.update_self] at heq
    rcases (h.node_iff hsize).mp ht with ht | rfl
    · rw [name_of_node ht] at heq
      exact absurd heq.symm (hnew t ht)
    · rfl

theorem ltr_extend (h : Trie m name strings g) (hm : m.Valid)
    (hP : ∀ s, P s = true ↔ At m name g p s)
    (hnew : ∀ t, Node m g t → name t ≠ p ++ [b]) (hsize : j.fsm.size = g.fsm.size + 1)
    (hltr : ∀ s c, j.ltr s c =
      if p ≠ [] ∧ P s = true ∧ c = b then g.fsm.size else g.ltr s c)
    {s : Nat} {c : UInt8} (hs : Node m j s) :
    Tabled m (Function.update name g.fsm.size (p ++ [b])) j
      (Function.update name g.fsm.size (p ++ [b]) s) c (j.ltr s c) := by
  rw [hltr]
  rcases (h.node_iff hsize).mp hs with hs | rfl
  · rw [name_of_node hs]
    split
    · rename_i hc
      obtain ⟨hp', hat, rfl⟩ := hc
      rcases (hP s).mp hat with ⟨rfl, -⟩ | ⟨-, -, hname⟩
      · exact absurd rfl hp'
      · rw [hname]
        exact h.tabled_new hsize
    · rename_i hc
      refine h.tabled_kept hsize (fun hq => hc ?_) (h.ltr s c hs)
      have hp' : p ≠ [] := hq.1 ▸ h.name_ne s hs
      exact ⟨hp', (hP s).mpr (Or.inr ⟨hp', hs, hq.1⟩), hq.2⟩
  · have hnot : ¬ P g.fsm.size = true := fun hc =>
      h.not_at_of_le hm (Nat.le_refl _) ((hP _).mp hc)
    rw [if_neg (fun hc => hnot hc.2.1), Function.update_self, h.fresh _ _ (Nat.le_refl _)]
    refine Or.inl ⟨rfl, fun t ht heq => ?_⟩
    rcases (h.node_iff hsize).mp ht with ht | rfl
    · rw [name_of_node ht] at heq
      exact h.not_leads_new hnew (Or.inr ⟨ht, heq⟩)
    · rw [Function.update_self] at heq
      exact absurd (congrArg List.length heq) (by simp)

/-- A new state behind `p`, which is entered in the tables. -/
theorem extend (h : Trie m name strings g) (hm : m.Valid)
    (hP : ∀ s, P s = true ↔ At m name g p s)
    (hp : p ≠ [] → ∃ t, Node m g t ∧ name t = p)
    (hnew : ∀ t, Node m g t → name t ≠ p ++ [b])
    (hfsm : j.fsm =
      { (g.fsm.grow 1).connectWhere P g.fsm.size (byte b).1 with determined := false })
    (hstart : ∀ c, j.startLtr c = if p = [] ∧ c = b then g.fsm.size else g.startLtr c)
    (hltr : ∀ s c, j.ltr s c =
      if p ≠ [] ∧ P s = true ∧ c = b then g.fsm.size else g.ltr s c) :
    Trie m (Function.update name g.fsm.size (p ++ [b])) strings j := by
  have hsize : j.fsm.size = g.fsm.size + 1 := by
    rw [hfsm]
    show ((g.fsm.grow 1).connectWhere P g.fsm.size (byte b).1).size = _
    rw [size_connectWhere, size_grow]
  have hfree : (g.fsm.grow 1).Free (byte b).1 := free_of_letters_empty h.letters _
  have hv := (h.valid.grow 1).connectWhere P
    (show g.fsm.size < (g.fsm.grow 1).size by rw [size_grow]; exact Nat.lt_succ_self _) hfree
  have hup : ∀ q, (∃ t, Node m g t ∧ name t = q) →
      ∃ t, Node m j t ∧ Function.update name g.fsm.size (p ++ [b]) t = q := by
    rintro q ⟨t, ht, htq⟩
    exact ⟨t, (h.node_iff hsize).mpr (Or.inl ht), (name_of_node ht _).trans htq⟩
  refine
    { size_lt := by rw [hsize]; exact Nat.lt_succ_of_lt h.size_lt
      initial := by rw [hfsm]; exact h.initial
      final := by rw [hfsm]; exact h.final
      letters := by rw [hfsm]; exact h.letters
      valid := by rw [hfsm]; exact hv.withEnds rfl hv.initial_lt hv.final_lt false
      targets := fun s d t hs => ?_
      name_ne := fun s hs => ?_
      name_inj := fun s t hs ht heq => h.name_inj_extend hnew hsize hs ht heq
      parent := fun s q c hs hn hq => ?_
      before := fun q c hs hq => hup q (h.before q c hs hq)
      not_nil := h.not_nil
      startLtr := fun c => ?_
      ltr := fun s c hs => h.ltr_extend hm hP hnew hsize hltr hs
      fresh := fun s c hs => ?_ }
  · rw [hsize] at hs
    refine h.targets_extend hm hP hnew hsize hs ?_
    rw [hfsm, ← targets_grow g.fsm 1]
    exact mem_targets_connectWhere hfree (by rw [size_grow]; exact hs)
  · rcases (h.node_iff hsize).mp hs with hs | rfl
    · rw [name_of_node hs]
      exact h.name_ne s hs
    · rw [Function.update_self]
      exact List.append_ne_nil_of_right_ne_nil _ (List.cons_ne_nil _ _)
  · rcases (h.node_iff hsize).mp hs with hs | rfl
    · rw [name_of_node hs] at hn
      exact hup q (h.parent s q c hs hn hq)
    · rw [Function.update_self] at hn
      obtain ⟨rfl, -⟩ := List.append_inj' hn rfl
      exact hup _ (hp hq)
  · rw [hstart]
    split
    · rename_i hc
      obtain ⟨rfl, rfl⟩ := hc
      exact h.tabled_new hsize
    · rename_i hc
      exact h.tabled_kept hsize (fun hq => hc ⟨hq.1.symm, hq.2⟩) (h.startLtr c)
  · rw [hsize] at hs
    have hle := Nat.le_of_succ_le hs
    rw [hltr, if_neg (fun hc => h.not_at_of_le hm hle ((hP _).mp hc.2.1))]
    exact h.fresh s c hle

end Extend

/-! ## The strings one after the other -/

/-- What a state of the tree is known by. -/
theorem at_node (h : Trie m name strings g) {s : Nat} (hs : Node m g s) (t : Nat) :
    decide (t = s) = true ↔ At m name g (name s) t := by
  rw [decide_eq_true_eq]
  constructor
  · rintro rfl
    exact Or.inr ⟨h.name_ne t hs, hs, rfl⟩
  · rintro (⟨hn, -⟩ | ⟨-, ht, hn⟩)
    · exact absurd hn (h.name_ne s hs)
    · exact h.name_inj t s ht hs hn

theorem at_nil (h : Trie m name strings g) (s : Nat) :
    decide (s ∈ g.fsm.final) = true ↔ At m name g [] s := by
  rw [decide_eq_true_eq, h.final]
  unfold At
  simp

/-- The state that a byte leads to is there, or it is made. -/
theorem newState (h : Trie m name strings g) (hm : m.Valid) {s : Nat} (hs : Node m g s)
    (b : UInt8) : ∃ name', Trie m name' strings (g.newState s b).1 ∧
      Node m (g.newState s b).1 (g.newState s b).2 ∧ name' (g.newState s b).2 = name s ++ [b] := by
  rcases h.ltr s b hs with ⟨hk, hnew⟩ | ⟨hn, hk⟩
  · have hgrown : Growing.newState g s b =
        ({ g.undetermined ((g.fsm.grow 1).connect s g.fsm.size (byte b).1) with
          ltr := Function.update g.ltr s (Function.update (g.ltr s) b g.fsm.size) },
          g.fsm.size) := by
      unfold Growing.newState
      rw [if_neg (not_not.mpr hk)]
    have hname := h.name_ne s hs
    rw [hgrown]
    have ht := h.extend hm (h.at_node hs) (fun _ => ⟨s, hs, rfl⟩) hnew
      (j := { g.undetermined ((g.fsm.grow 1).connect s g.fsm.size (byte b).1) with
          ltr := Function.update g.ltr s (Function.update (g.ltr s) b g.fsm.size) })
      rfl (fun c => (if_neg (fun hc => hname hc.1)).symm) (fun t c => ?_)
    · refine ⟨_, ht, ⟨h.size_lt, ?_⟩, Function.update_self _ _ _⟩
      show g.fsm.size < ((g.fsm.grow 1).connectWhere _ _ _).size
      rw [size_connectWhere, size_grow]
      exact Nat.lt_succ_self _
    · show Function.update g.ltr s (Function.update (g.ltr s) b g.fsm.size) t c = _
      by_cases hts : t = s
      · subst hts
        rw [Function.update_self]
        by_cases hc : c = b
        · subst hc
          rw [Function.update_self, if_pos ⟨hname, decide_eq_true rfl, rfl⟩]
        · rw [Function.update_of_ne hc, if_neg (fun hc' => hc hc'.2.2)]
      · rw [Function.update_of_ne hts, if_neg (fun hc' => hts (of_decide_eq_true hc'.2.1))]
  · have hk0 : g.ltr s b ≠ 0 := Nat.pos_iff_ne_zero.mp (Nat.lt_of_le_of_lt (Nat.zero_le _) hn.1)
    have hkept : Growing.newState g s b = (g, g.ltr s b) := if_pos hk0
    rw [hkept]
    exact ⟨name, h, hn, hk⟩

/-- The state that a first byte leads to is there, or it is made. -/
theorem firstJump (h : Trie m name strings g) (hm : m.Valid) (b : UInt8) :
    ∃ name', Trie m name' strings (g.firstJump b).1 ∧
      Node m (g.firstJump b).1 (g.firstJump b).2 ∧ name' (g.firstJump b).2 = [b] := by
  rcases h.startLtr b with ⟨hk, hnew⟩ | ⟨hn, hk⟩
  · have hgrown : Growing.firstJump g b =
        ({ g.undetermined ((g.fsm.grow 1).connectFinal g.fsm.size (byte b).1) with
          startLtr := Function.update g.startLtr b g.fsm.size }, g.fsm.size) := by
      unfold Growing.firstJump
      rw [if_neg (not_not.mpr hk)]
    rw [hgrown]
    have ht := h.extend hm h.at_nil (fun hp => absurd rfl hp) hnew
      (j := { g.undetermined ((g.fsm.grow 1).connectFinal g.fsm.size (byte b).1) with
          startLtr := Function.update g.startLtr b g.fsm.size })
      rfl (fun c => ?_) (fun t c => (if_neg (fun hc => hc.1 rfl)).symm)
    · refine ⟨_, ht, ⟨h.size_lt, ?_⟩, Function.update_self _ _ _⟩
      show g.fsm.size < ((g.fsm.grow 1).connectWhere _ _ _).size
      rw [size_connectWhere, size_grow]
      exact Nat.lt_succ_self _
    · show Function.update g.startLtr b g.fsm.size c = _
      by_cases hc : c = b
      · subst hc
        rw [Function.update_self, if_pos ⟨rfl, rfl⟩]
      · rw [Function.update_of_ne hc, if_neg (fun hc' => hc hc'.2)]
  · have hk0 : g.startLtr b ≠ 0 :=
      Nat.pos_iff_ne_zero.mp (Nat.lt_of_le_of_lt (Nat.zero_le _) hn.1)
    have hkept : Growing.firstJump g b = (g, g.startLtr b) := if_pos hk0
    rw [hkept]
    exact ⟨name, h, hn, hk⟩

/-- The rest of a string, from where its beginning leads. -/
theorem rest (hm : m.Valid) (str : List UInt8) (hstr : str ≠ [])
    (h : Trie m name strings g) {s : Nat} (hs : Node m g s) :
    ∃ name', Trie m name' (fun w => strings w ∨ w = name s ++ str)
      (Growing.rest m.size g s str) := by
  induction str generalizing g name s with
  | nil => exact absurd rfl hstr
  | cons b str ih =>
    cases str with
    | nil => exact ⟨name, h.finish (h.at_node hs) (fun _ => ⟨s, hs, rfl⟩)⟩
    | cons c str =>
      obtain ⟨name', h', hs', hname⟩ := h.newState hm hs b
      obtain ⟨name'', h''⟩ := ih (List.cons_ne_nil c str) h' hs'
      rw [hname, List.append_assoc] at h''
      exact ⟨name'', h''⟩

theorem appendString (h : Trie m name strings g) (hm : m.Valid) {str : List UInt8}
    (hstr : str ≠ []) : ∃ name', Trie m name' (fun w => strings w ∨ w = str)
      (Growing.appendString m.size g str) := by
  cases str with
  | nil => exact absurd rfl hstr
  | cons b str =>
    cases str with
    | nil => exact ⟨name, h.finish h.at_nil (fun hp => absurd rfl hp)⟩
    | cons c str =>
      obtain ⟨name', h', hs', hname⟩ := h.firstJump hm b
      obtain ⟨name'', h''⟩ := rest hm (c :: str) (List.cons_ne_nil c str) h' hs'
      rw [hname] at h''
      exact ⟨name'', h''⟩

theorem appendAll (hm : m.Valid) (strs : List (List UInt8)) (hstrs : ∀ w ∈ strs, w ≠ [])
    (h : Trie m name strings g) : ∃ name', Trie m name' (fun w => strings w ∨ w ∈ strs)
      (strs.foldl (Growing.appendString m.size) g) := by
  induction strs generalizing g name strings with
  | nil =>
    simp only [List.not_mem_nil, or_false]
    exact ⟨name, h⟩
  | cons str strs ih =>
    obtain ⟨name', h'⟩ := h.appendString hm (hstrs str List.mem_cons_self)
    obtain ⟨name'', h''⟩ := ih (fun w hw => hstrs w (List.mem_cons_of_mem _ hw)) h'
    refine ⟨name'', ?_⟩
    simp only [or_assoc, ← List.mem_cons] at h''
    exact h''

/-! ## What is read in the tree -/

theorem node_of_beginning (h : Trie m name strings g) {p : List UInt8} (hp : p ≠ [])
    (w : List UInt8) {s : Nat} (hs : Node m g s) (hname : name s = p ++ w) :
    ∃ t, Node m g t ∧ name t = p := by
  induction w using List.reverseRecOn generalizing s with
  | nil => exact ⟨s, hs, hname.trans (List.append_nil p)⟩
  | append_singleton w c ih =>
    rw [← List.append_assoc] at hname
    obtain ⟨t, ht, hname'⟩ := h.parent s _ c hs hname (List.append_ne_nil_of_left_ne_nil hp w)
    exact ih ht hname'

theorem node_of_string (h : Trie m name strings g) {p w : List UInt8} (hp : p ≠ [])
    (hw : w ≠ []) (hstr : strings (p ++ w)) : ∃ t, Node m g t ∧ name t = p := by
  obtain ⟨w, c, rfl⟩ : ∃ v c, w = v ++ [c] :=
    ⟨w.dropLast, w.getLast hw, (List.dropLast_append_getLast hw).symm⟩
  rw [← List.append_assoc] at hstr
  obtain ⟨t, ht, hname⟩ := h.before _ c hstr (List.append_ne_nil_of_left_ne_nil hp w)
  exact h.node_of_beginning hp w ht hname

/-- The tree as it is left, with its end as the final state. -/
def done (m : Fsm) (g : Growing) : Fsm := { g.fsm with final := {m.size} }

theorem not_at_end (hm : m.Valid) (p : List UInt8) : ¬ At m name g p m.size := by
  rintro (⟨-, hf⟩ | ⟨-, hn, -⟩)
  · exact Nat.lt_irrefl _ (hm.final_lt _ hf)
  · exact Nat.lt_irrefl _ hn.1

theorem acceptsFrom_end (h : Trie m name strings g) (hm : m.Valid) :
    acceptsFrom (done m g).nfa m.size = 1 := by
  refine acceptsFrom_sink (fun o => ?_) (Finset.mem_singleton_self m.size)
  refine Set.eq_empty_of_forall_notMem fun t ht => ?_
  rw [mem_step] at ht
  rcases (h.targets m.size _ t h.size_lt).mp ht with ht | ⟨p, b, hat, -⟩
  · rw [targets_of_size_le (Nat.le_refl _)] at ht
    exact absurd ht (Finset.notMem_empty t)
  · exact not_at_end hm p hat

theorem mem_step_node (h : Trie m name strings g) (hm : m.Valid) {s : Nat} (hs : Node m g s)
    {o : Option Input} {t : Nat} : t ∈ (done m g).nfa.step s o ↔
      ∃ b, o = some (byte b) ∧ Leads m name strings g (name s) b t := by
  rw [mem_step]
  show t ∈ g.fsm.targets s (label o) ↔ _
  rw [h.targets s _ t hs.2, targets_of_size_le (Nat.le_of_lt hs.1)]
  constructor
  · rintro (ht | ⟨p, b, hat, hd, hl⟩)
    · exact absurd ht (Finset.notMem_empty t)
    · obtain rfl := at_unique hm hat (Or.inr ⟨h.name_ne s hs, hs, rfl⟩)
      exact ⟨b, label_inj hd, hl⟩
  · rintro ⟨b, rfl, hl⟩
    exact Or.inr ⟨name s, b, Or.inr ⟨h.name_ne s hs, hs, rfl⟩, rfl, hl⟩

/-- From a state, what completes its name to a string. -/
theorem mem_acceptsFrom_node (h : Trie m name strings g) (hm : m.Valid) {s : Nat}
    (hs : Node m g s) (x : List Input) : x ∈ acceptsFrom (done m g).nfa s ↔
      ∃ w, w ≠ [] ∧ strings (name s ++ w) ∧ x = w.map byte := by
  induction x generalizing s with
  | nil =>
    rw [mem_acceptsFrom]
    constructor
    · rintro (⟨-, hf⟩ | ⟨o, t, y, hx, ho, -⟩)
      · obtain rfl : s = m.size := Finset.mem_singleton.mp hf
        exact absurd hs.1 (Nat.lt_irrefl _)
      · obtain ⟨b, rfl, -⟩ := (h.mem_step_node hm hs).mp ho
        exact absurd hx (List.cons_ne_nil _ _).symm
    · rintro ⟨w, hw, -, hx⟩
      exact absurd (List.map_eq_nil_iff.mp hx.symm) hw
  | cons a x ih =>
    rw [mem_acceptsFrom]
    constructor
    · rintro (⟨hx, -⟩ | ⟨o, t, y, hx, ho, hy⟩)
      · exact absurd hx (List.cons_ne_nil _ _)
      · obtain ⟨b, rfl, hl⟩ := (h.mem_step_node hm hs).mp ho
        obtain ⟨rfl, rfl⟩ : a = byte b ∧ x = y := List.cons.inj hx
        rcases hl with ⟨rfl, hstr⟩ | ⟨ht, hname⟩
        · rw [h.acceptsFrom_end hm, Language.mem_one] at hy
          subst hy
          exact ⟨[b], List.cons_ne_nil _ _, hstr, rfl⟩
        · obtain ⟨w, -, hstr, rfl⟩ := (ih ht).mp hy
          rw [hname, List.append_assoc] at hstr
          exact ⟨b :: w, List.cons_ne_nil _ _, hstr, rfl⟩
    · rintro ⟨w, hw, hstr, hx⟩
      cases w with
      | nil => exact absurd rfl hw
      | cons b w =>
        obtain ⟨rfl, rfl⟩ : a = byte b ∧ x = w.map byte := List.cons.inj hx
        refine Or.inr ?_
        by_cases hnil : w = []
        · subst hnil
          refine ⟨some (byte b), m.size, [], rfl, (h.mem_step_node hm hs).mpr
            ⟨b, rfl, Or.inl ⟨rfl, hstr⟩⟩, ?_⟩
          rw [h.acceptsFrom_end hm]
          exact Language.nil_mem_one
        · rw [List.append_cons] at hstr
          obtain ⟨t, ht, hname⟩ := h.node_of_string (by simp) hnil hstr
          exact ⟨some (byte b), t, w.map byte, rfl, (h.mem_step_node hm hs).mpr
            ⟨b, rfl, Or.inr ⟨ht, hname⟩⟩, (ih ht).mpr ⟨w, hnil, hname ▸ hstr, rfl⟩⟩

theorem lang_done (h : Trie m name strings g) (hm : m.Valid) :
    (done m g).lang = m.lang * spelt strings := by
  let E : Option Input → Nat → Prop :=
    fun o t => ∃ b, o = some (byte b) ∧ Leads m name strings g [] b t
  rw [lang_of_exits (j := done m g) hm (E := E) h.initial ?_ ?_]
  · congr 1
    ext x
    constructor
    · rintro ⟨o, t, y, rfl, ⟨b, rfl, ⟨rfl, hstr⟩ | ⟨ht, hname⟩⟩, hy⟩
      · rw [h.acceptsFrom_end hm, Language.mem_one] at hy
        subst hy
        exact ⟨[b], hstr, rfl⟩
      · obtain ⟨w, -, hstr, rfl⟩ := (h.mem_acceptsFrom_node hm ht y).mp hy
        rw [hname] at hstr
        exact ⟨b :: w, hstr, rfl⟩
    · rintro ⟨w, hstr, rfl⟩
      cases w with
      | nil => exact absurd hstr h.not_nil
      | cons b w =>
        by_cases hnil : w = []
        · subst hnil
          refine ⟨some (byte b), m.size, [], rfl, ⟨b, rfl, Or.inl ⟨rfl, hstr⟩⟩, ?_⟩
          rw [h.acceptsFrom_end hm]
          exact Language.nil_mem_one
        · have hstr' : strings ([b] ++ w) := hstr
          obtain ⟨t, ht, hname⟩ := h.node_of_string (List.cons_ne_nil b []) hnil hstr'
          exact ⟨some (byte b), t, w.map byte, rfl, ⟨b, rfl, Or.inr ⟨ht, hname⟩⟩,
            (h.mem_acceptsFrom_node hm ht _).mpr ⟨w, hnil, hname ▸ hstr', rfl⟩⟩
  · intro s o t hs
    show t ∈ g.fsm.targets s (label o) ↔ _
    rw [h.targets s _ t (Nat.lt_trans hs h.size_lt)]
    constructor
    · rintro (ht | ⟨p, b, ⟨rfl, hf⟩ | ⟨-, hn, -⟩, hd, hl⟩)
      · exact Or.inl ht
      · exact Or.inr ⟨hf, b, label_inj hd, hl⟩
      · exact absurd hs (Nat.lt_asymm hn.1)
    · rintro (ht | ⟨hf, b, rfl, hl⟩)
      · exact Or.inl ht
      · exact Or.inr ⟨[], b, Or.inl ⟨rfl, hf⟩, rfl, hl⟩
  · intro s hs hf
    exact Nat.ne_of_lt hs (Finset.mem_singleton.mp hf)

end Trie

/-! ## The strings as a whole -/

section AppendStrings

variable {m j : Fsm} {strings : List (List UInt8)}

theorem appendStrings_eq_some (h : m.Valid) (hm : m.letters = Partition.empty)
    (hj : m.appendStrings strings = some j) : (∀ w ∈ strings, w ≠ []) ∧
      ∃ name g, Trie m name (· ∈ strings) g ∧ j = Trie.done m g := by
  unfold appendStrings at hj
  split at hj
  · exact absurd hj.symm (Option.some_ne_none j)
  · rename_i hne
    have hstrs : ∀ w ∈ strings, w ≠ [] := by
      intro w hw hnil
      exact hne (List.any_eq_true.mpr ⟨w, hw, by rw [hnil]; rfl⟩)
    obtain ⟨name, hg⟩ := Trie.appendAll h strings hstrs (Trie.start h hm)
    simp only [false_or] at hg
    exact ⟨hstrs, name, _, hg, (Option.some.inj hj).symm⟩

theorem appendStrings_letters (h : m.Valid) (hm : m.letters = Partition.empty)
    (hj : m.appendStrings strings = some j) : j.letters = Partition.empty := by
  obtain ⟨-, name, g, hg, rfl⟩ := appendStrings_eq_some h hm hj
  exact hg.letters

theorem not_final_appendStrings (h : m.Valid) (hm : m.letters = Partition.empty)
    (hj : m.appendStrings strings = some j) : j.initial ∉ j.final := by
  obtain ⟨-, name, g, hg, rfl⟩ := appendStrings_eq_some h hm hj
  intro hf
  have hi : g.fsm.initial = m.size := Finset.mem_singleton.mp hf
  exact Nat.ne_of_lt h.initial_lt (hg.initial.symm.trans hi)

/-- A word of the old automaton, then one of the strings. -/
theorem lang_appendStrings (h : m.Valid) (hm : m.letters = Partition.empty)
    (hj : m.appendStrings strings = some j) : j.lang = m.lang * spelt (· ∈ strings) := by
  obtain ⟨-, name, g, hg, rfl⟩ := appendStrings_eq_some h hm hj
  exact hg.lang_done h

/-- Each string ends with a step put in, so that the result is marked neither as
alternatives nor as determined. -/
theorem appendString_flags (e : Nat) (g : Growing) {str : List UInt8} (hstr : str ≠ []) :
    (g.appendString e str).fsm.isAlternative = false ∧
      (g.appendString e str).fsm.determined = false := by
  have hrest : ∀ (str : List UInt8) (g : Growing) (s : Nat), str ≠ [] →
      (Growing.rest e g s str).fsm.isAlternative = false ∧
        (Growing.rest e g s str).fsm.determined = false := by
    intro str
    induction str with
    | nil => exact fun _ _ hnil => absurd rfl hnil
    | cons b str ih =>
      intro g s _
      cases str with
      | nil => exact ⟨rfl, rfl⟩
      | cons c str => exact ih _ _ (List.cons_ne_nil c str)
  cases str with
  | nil => exact absurd rfl hstr
  | cons b str =>
    cases str with
    | nil => exact ⟨rfl, rfl⟩
    | cons c str => exact hrest _ _ _ (List.cons_ne_nil c str)

theorem appendStrings_flags (hne : strings ≠ []) (hj : m.appendStrings strings = some j) :
    j.isAlternative = false ∧ j.determined = false := by
  unfold appendStrings at hj
  split at hj
  · exact absurd hj.symm (Option.some_ne_none j)
  · rename_i hempty
    obtain ⟨strs, str, rfl⟩ : ∃ v w, strings = v ++ [w] :=
      ⟨strings.dropLast, strings.getLast hne, (List.dropLast_append_getLast hne).symm⟩
    rw [← Option.some.inj hj, List.foldl_append]
    refine appendString_flags m.size _ (fun hnil => hempty ?_)
    exact List.any_eq_true.mpr ⟨str, by simp, by rw [hnil]; rfl⟩

theorem Valid.appendStrings (h : m.Valid) (hm : m.letters = Partition.empty)
    (hne : strings ≠ []) (hj : m.appendStrings strings = some j) : j.Valid := by
  have hflags := appendStrings_flags hne hj
  obtain ⟨-, name, g, hg, rfl⟩ := appendStrings_eq_some h hm hj
  refine hg.valid.withEnds hflags.1 hg.valid.initial_lt (fun s hs => ?_) g.fsm.determined
  rw [Finset.mem_singleton.mp hs]
  exact hg.size_lt

end AppendStrings

end Fsm
end Pire
end MediaServer
