/-
Splitting a partition by a finer relation.

`Sound.split` says that the classes of the result are those of the new relation
and that a key stays a key.  So a split that makes no class more changes no
item's key (`Sound.split_inv_of_size_le`).
-/
import MediaServer.Pire.Partition

namespace MediaServer
namespace Pire
namespace Partition

variable {T : Type}

section Parts

variable {eq : T → T → Bool} {D : T → Prop} {q : Partition T}

/-- Another relation will do if it says the same of the classes. -/
theorem Sound.change {eq' : T → T → Bool} {rest : List Nat} (h : Sound eq D rest q)
    (hsame : ∀ k ∈ q.set, ∀ c ∈ k.items, eq k.key c = true → eq' k.key c = true)
    (hapart : ∀ k ∈ q.set, ∀ j ∈ q.set, eq' k.key j.key = true → k.key = j.key) :
    Sound eq' D rest q where
  inv := h.inv
  cover := h.cover
  head := h.head
  nodup := h.nodup
  keys := h.keys
  idxs := h.idxs
  same k hk c hc := hsame k hk c hc (h.same k hk c hc)
  apart := hapart

/-- Two parts of one partition. -/
theorem Sound.join {D' : T → Prop} {l r : List (Klass T)} {inv : T → Option T} {n : Nat}
    (hl : Sound eq D (r.map Klass.idx) ⟨l, inv, n⟩) (hr : Sound eq D' (l.map Klass.idx) ⟨r, inv, n⟩)
    (hlr : ∀ k ∈ l, ∀ j ∈ r, k.key ≠ j.key ∧ eq k.key j.key = false ∧ eq j.key k.key = false) :
    Sound eq (fun c => D c ∨ D' c) [] ⟨l ++ r, inv, n⟩ where
  inv k hk := by
    rcases List.mem_append.mp hk with hk | hk
    · exact hl.inv k hk
    · exact hr.inv k hk
  cover c := by
    have hc := hl.cover c
    have hc' := hr.cover c
    simp only at hc hc'
    simp only [hc, hc', List.mem_append, or_and_right, exists_or]
  head k hk := by
    rcases List.mem_append.mp hk with hk | hk
    · exact hl.head k hk
    · exact hr.head k hk
  nodup k hk := by
    rcases List.mem_append.mp hk with hk | hk
    · exact hl.nodup k hk
    · exact hr.nodup k hk
  keys := by
    rw [List.map_append]
    refine List.nodup_append.mpr ⟨hl.keys, hr.keys, fun a ha b hb => ?_⟩
    obtain ⟨k, hk, rfl⟩ := List.mem_map.mp ha
    obtain ⟨j, hj, rfl⟩ := List.mem_map.mp hb
    exact (hlr k hk j hj).1
  idxs := by
    rw [List.map_append, List.append_nil]
    exact hl.idxs
  same k hk := by
    rcases List.mem_append.mp hk with hk | hk
    · exact hl.same k hk
    · exact hr.same k hk
  apart k hk j hj hkj := by
    rcases List.mem_append.mp hk with hk | hk
    · rcases List.mem_append.mp hj with hj | hj
      · exact hl.apart k hk j hj hkj
      · exact absurd hkj (by rw [(hlr k hk j hj).2.1]; exact Bool.false_ne_true)
    · rcases List.mem_append.mp hj with hj | hj
      · exact absurd hkj (by rw [(hlr j hj k hk).2.2]; exact Bool.false_ne_true)
      · exact hr.apart k hk j hj hkj

/-- A partition of no items, beside one with the indices of `rest`. -/
theorem sound_nothing (eq : T → T → Bool) {rest : List Nat} {n : Nat} (inv : T → Option T)
    (h : rest.Perm (List.range n)) : Sound eq (fun _ => False) rest ⟨[], inv, n⟩ where
  inv k hk := absurd hk List.not_mem_nil
  cover c := by simp only [List.not_mem_nil, false_and, exists_false]
  head k hk := absurd hk List.not_mem_nil
  nodup k hk := absurd hk List.not_mem_nil
  keys := List.nodup_nil
  idxs := h
  same k hk := absurd hk List.not_mem_nil
  apart k hk := absurd hk List.not_mem_nil

end Parts

variable [LinearOrder T]

/-- Equivalent: in one class. -/
def sameKlass (p : Partition T) (a b : T) : Bool := decide (p.inv a = p.inv b)

theorem Sound.sameKlass {eq : T → T → Bool} {D : T → Prop} {rest : List Nat} {p : Partition T}
    (h : Sound eq D rest p) : Sound p.sameKlass D rest p where
  inv := h.inv
  cover := h.cover
  head := h.head
  nodup := h.nodup
  keys := h.keys
  idxs := h.idxs
  same k hk c hc := by
    unfold Partition.sameKlass
    rw [h.inv k hk c hc, h.inv_key hk, decide_eq_true_iff]
  apart k hk j hj hkj := by
    unfold Partition.sameKlass at hkj
    rw [h.inv_key hk, h.inv_key hj, decide_eq_true_iff] at hkj
    exact Option.some.inj hkj

/-- The relation while classes are split: `done` are the keys of those that have
been. -/
def splitting (eq : T → T → Bool) (p : Partition T) (done : List T) (a b : T) : Bool :=
  if ∃ k ∈ done, p.inv a = some k then eq a b else p.sameKlass a b

theorem foldl_insertKlass_perm (l set : List (Klass T)) :
    (l.foldl insertKlass set).Perm (l ++ set) := by
  induction l generalizing set with
  | nil => exact List.Perm.refl _
  | cons k l ih =>
    rw [List.foldl_cons]
    refine (ih _).trans ?_
    exact ((List.perm_orderedInsert _ k set).append_left l).trans List.perm_middle

section Split

variable {eq : T → T → Bool} {D : T → Prop} {p q : Partition T} {done : List T}

theorem splitting_done {a b k : T} (hk : k ∈ done) (ha : p.inv a = some k) :
    splitting eq p done a b = eq a b := if_pos ⟨k, hk, ha⟩

theorem splitting_of_sameKlass (hrefine : ∀ a b, D a → D b → eq a b = true → p.inv a = p.inv b)
    {a b : T} (ha : D a) (hb : D b) (h : splitting eq p done a b = true) :
    p.inv a = p.inv b := by
  unfold splitting at h
  split at h
  · exact hrefine a b ha hb h
  · exact of_decide_eq_true h

theorem splitting_cons_of_ne {a b k : T} (ha : p.inv a ≠ some k) :
    splitting eq p (k :: done) a b = splitting eq p done a b := by
  unfold splitting
  simp only [List.exists_mem_cons_iff, ha, false_or]

theorem map_key_shrink (set : List (Klass T)) (k : Klass T) (items : List T) :
    (shrink set k items).map Klass.key = set.map Klass.key := by
  unfold shrink
  rw [List.map_map]
  refine List.map_congr_left fun j _ => ?_
  simp only [Function.comp_apply]
  split <;> rfl

theorem map_idx_shrink (set : List (Klass T)) (k : Klass T) (items : List T) :
    (shrink set k items).map Klass.idx = set.map Klass.idx := by
  unfold shrink
  rw [List.map_map]
  refine List.map_congr_left fun j _ => ?_
  simp only [Function.comp_apply]
  split <;> rfl

theorem mem_shrink {set : List (Klass T)} {k j : Klass T} {items : List T}
    (hkeys : ∀ i ∈ set, i.key = k.key → i = k) (hk : k ∈ set) : j ∈ shrink set k items ↔
      j = { k with items := items } ∨ (j ∈ set ∧ j.key ≠ k.key) := by
  unfold shrink
  rw [List.mem_map]
  constructor
  · rintro ⟨i, hi, rfl⟩
    split
    · rename_i hik
      rw [hkeys i hi hik]
      exact Or.inl rfl
    · rename_i hik
      exact Or.inr ⟨hi, hik⟩
  · rintro (rfl | ⟨hj, hjk⟩)
    · exact ⟨k, hk, if_pos rfl⟩
    · exact ⟨j, hj, if_neg hjk⟩

section Visit

variable [StdPartition T]

theorem revisit_key (eq : T → T → Bool) (k j : Klass T) : (revisit eq k j).key = j.key := by
  unfold revisit
  split
  · rfl
  · split <;> rfl

theorem revisit_idx (eq : T → T → Bool) (k j : Klass T) : (revisit eq k j).idx = j.idx := by
  unfold revisit
  split
  · rfl
  · split <;> rfl

/-- Where all items of a class are equivalent to the first one, a visit keeps them
and the first one among them. -/
theorem revisit_items {k j : Klass T} (hall : ∀ first, j.items.head? = some first →
    ∀ c ∈ j.items, eq c first = true) :
    (revisit eq k j).items.Perm j.items ∧ (revisit eq k j).items.head? = j.items.head? := by
  unfold revisit
  split
  · exact ⟨List.Perm.refl _, rfl⟩
  · rename_i first others hitems
    rw [hitems] at hall
    have hfilter : (first :: others).filter (fun t => eq t first) = first :: others :=
      List.filter_eq_self.mpr (hall first rfl)
    split
    · rw [hitems]
      refine ⟨?_, ?_⟩
      · refine List.Perm.trans (StdPartition.perm_fst _ _) ?_
        rw [hfilter]
      · exact StdPartition.head _ first others (hall first rfl first List.mem_cons_self)
    · exact ⟨List.Perm.refl _, rfl⟩

/-- What a class becomes when it is split, for some order of the items that stay and
of those that leave. -/
theorem splitKlass_eq (eq : T → T → Bool) (q : Partition T) {k : Klass T}
    (hhead : k.items.head? = some k.key) (hrefl : eq k.key k.key = true) :
    ∃ same other : List T, same.Perm (k.items.filter fun t => eq t k.key) ∧
      other.Perm (k.items.filter fun t => !eq t k.key) ∧ same.head? = some k.key ∧
      splitKlass eq q k =
        let delta := other.foldl (doAppend eq) { q with set := [] }
        { delta with
          set := (delta.set.map (revisit eq k)).foldl insertKlass (shrink q.set k same) } := by
  unfold splitKlass
  cases hi : k.items with
  | nil => rw [hi] at hhead; exact absurd hhead.symm (Option.some_ne_none _)
  | cons first others =>
    rw [hi, List.head?_cons] at hhead
    obtain rfl := Option.some.inj hhead
    refine ⟨_, _, StdPartition.perm_fst _ _, StdPartition.perm_snd _ _,
      StdPartition.head _ k.key others hrefl, ?_⟩
    dsimp only
    split
    · rename_i hnil
      rw [hnil]
      rfl
    · rfl

end Visit

section Step

variable {eq₀ : T → T → Bool} {k : Klass T}
  (hp : Sound eq₀ D [] p) (hq : Sound (splitting eq p done) D [] q)
  (hrefl : ∀ a, eq a a = true) (hsymm : ∀ a b, eq a b = true → eq b a = true)
  (hrefine : ∀ a b, D a → D b → eq a b = true → p.inv a = p.inv b)
  (hkq : k ∈ q.set) (hkp : k ∈ p.set) (hnew : k.key ∉ done)

include hp hq hkq hkp hnew

/-- The other classes are parts of other classes of `p`. -/
theorem inv_key_ne_of_splitting {j : Klass T} (hj : j ∈ q.set) (hjk : j.key ≠ k.key) :
    p.inv j.key ≠ some k.key := by
  intro he
  refine hjk (hq.apart j hj k hkq ?_)
  unfold splitting
  split
  · rename_i hdone
    obtain ⟨d, hd, hi⟩ := hdone
    rw [Option.some.inj (he.symm.trans hi)] at hnew
    exact absurd hd hnew
  · unfold Partition.sameKlass
    rw [he, hp.inv_key hkp, decide_eq_true_iff]

/-- The classes that are not split keep what they have. -/
theorem same_of_splitting_cons {j : Klass T} (hj : j ∈ q.set) (hjk : j.key ≠ k.key) {c : T}
    (hc : splitting eq p done j.key c = true) :
    splitting eq p (k.key :: done) j.key c = true := by
  rw [splitting_cons_of_ne (inv_key_ne_of_splitting hp hq hkq hkp hnew hj hjk)]
  exact hc

include hrefine

/-- A class that is not split has none of the keys of the new relation. -/
theorem key_eq_of_splitting_cons {i j : Klass T} (hi : i ∈ q.set) (hj : j ∈ q.set)
    (hij : splitting eq p (k.key :: done) i.key j.key = true) : i.key = j.key := by
  have hD : ∀ j ∈ q.set, D j.key := fun j hj => (hq.cover _).mpr ⟨j, hj, hq.key_mem hj⟩
  by_cases hik : i.key = k.key
  · rw [hik, splitting_done List.mem_cons_self (hp.inv_key hkp)] at hij
    have hinv := hrefine k.key j.key (hD k hkq) (hD j hj) hij
    rw [hp.inv_key hkp] at hinv
    by_contra hne
    rw [hik] at hne
    exact inv_key_ne_of_splitting hp hq hkq hkp hnew hj (Ne.symm hne) hinv.symm
  · have hne := inv_key_ne_of_splitting hp hq hkq hkp hnew hi hik
    rw [splitting_cons_of_ne hne] at hij
    exact hq.apart i hi j hj hij

include hsymm

/-- What is left when the items of `k` that are equivalent to its key are all
that `k` keeps. -/
theorem sound_shrink {same : List T} (hsame : same.Perm (k.items.filter fun t => eq t k.key))
    (hfirst : same.head? = some k.key) {inv : T → Option T} {n : Nat} {rest : List Nat}
    (hinv : ∀ c, ¬ (c ∈ k.items ∧ eq c k.key = false) → inv c = q.inv c)
    (hidxs : (q.set.map Klass.idx ++ rest).Perm (List.range n)) :
    Sound (splitting eq p (k.key :: done)) (fun c => D c ∧ ¬ (c ∈ k.items ∧ eq c k.key = false))
      rest ⟨shrink q.set k same, inv, n⟩ := by
  have hkept : ∀ c, c ∈ same ↔ c ∈ k.items ∧ eq c k.key = true := fun c => by
    rw [hsame.mem_iff, List.mem_filter]
  have hone : ∀ i ∈ q.set, i.key = k.key → i = k := fun i hi hik => hq.eq_of_key hi hkq hik
  have hkeep : ∀ j ∈ q.set, j.key ≠ k.key →
      ∀ c ∈ j.items, ¬ (c ∈ k.items ∧ eq c k.key = false) := by
    rintro j hj hjk c hc ⟨hck, -⟩
    exact hjk (Option.some.inj ((hq.inv j hj c hc).symm.trans (hq.inv k hkq c hck)))
  have hmem : ∀ j, j ∈ shrink q.set k same ↔
      j = { k with items := same } ∨ (j ∈ q.set ∧ j.key ≠ k.key) :=
    fun j => mem_shrink hone hkq
  refine ⟨?_, ?_, ?_, ?_, ?_, ?_, ?_, ?_⟩
  · intro j hj c hc
    show inv c = some j.key
    rcases (hmem j).mp hj with rfl | ⟨hj, hjk⟩
    · obtain ⟨hck, he⟩ := (hkept c).mp hc
      rw [hinv c fun h => absurd (he.symm.trans h.2) (Bool.false_ne_true ∘ Eq.symm)]
      exact hq.inv k hkq c hck
    · rw [hinv c (hkeep j hj hjk c hc)]
      exact hq.inv j hj c hc
  · intro c
    show _ ↔ ∃ j ∈ shrink q.set k same, c ∈ j.items
    constructor
    · rintro ⟨hc, hck⟩
      obtain ⟨j, hj, hcj⟩ := (hq.cover c).mp hc
      by_cases hjk : j.key = k.key
      · rw [hone j hj hjk] at hcj
        refine ⟨_, (hmem _).mpr (Or.inl rfl), (hkept c).mpr ⟨hcj, ?_⟩⟩
        by_contra he
        exact hck ⟨hcj, Bool.eq_false_iff.mpr he⟩
      · exact ⟨j, (hmem j).mpr (Or.inr ⟨hj, hjk⟩), hcj⟩
    · rintro ⟨j, hj, hcj⟩
      rcases (hmem j).mp hj with rfl | ⟨hj, hjk⟩
      · obtain ⟨hck, he⟩ := (hkept c).mp hcj
        exact ⟨(hq.cover c).mpr ⟨k, hkq, hck⟩,
          fun h => absurd (he.symm.trans h.2) (Bool.false_ne_true ∘ Eq.symm)⟩
      · exact ⟨(hq.cover c).mpr ⟨j, hj, hcj⟩, hkeep j hj hjk c hcj⟩
  · intro j hj
    rcases (hmem j).mp hj with rfl | ⟨hj, -⟩
    · exact hfirst
    · exact hq.head j hj
  · intro j hj
    rcases (hmem j).mp hj with rfl | ⟨hj, -⟩
    · exact hsame.nodup_iff.mpr ((hq.nodup k hkq).filter _)
    · exact hq.nodup j hj
  · show ((shrink q.set k _).map Klass.key).Nodup
    rw [map_key_shrink]
    exact hq.keys
  · show ((shrink q.set k _).map Klass.idx ++ rest).Perm (List.range n)
    rw [map_idx_shrink]
    exact hidxs
  · intro j hj c hc
    rcases (hmem j).mp hj with rfl | ⟨hj, hjk⟩
    · obtain ⟨-, he⟩ := (hkept c).mp hc
      show splitting eq p (k.key :: done) k.key c = true
      rw [splitting_done List.mem_cons_self (hp.inv_key hkp)]
      exact hsymm _ _ he
    · exact same_of_splitting_cons hp hq hkq hkp hnew hj hjk (hq.same j hj c hc)
  · have hkey : ∀ j ∈ shrink q.set k same, ∃ i ∈ q.set,
        i.key = j.key := by
      intro j hj
      rcases (hmem j).mp hj with rfl | ⟨hj, -⟩
      · exact ⟨k, hkq, rfl⟩
      · exact ⟨j, hj, rfl⟩
    intro i hi j hj hij
    obtain ⟨i', hi', hii⟩ := hkey i hi
    obtain ⟨j', hj', hjj⟩ := hkey j hj
    rw [← hii, ← hjj] at hij ⊢
    exact key_eq_of_splitting_cons hp hq hrefine hkq hkp hnew hi' hj' hij

variable [StdPartition T]

include hrefl

/-- One class is split. -/
theorem Sound.splitKlass :
    Sound (splitting eq p (k.key :: done)) D [] (splitKlass eq q k) ∧
      (∀ j ∈ q.set, j.key ≠ k.key → j ∈ (splitKlass eq q k).set) ∧
      ∀ j ∈ q.set, ∃ i ∈ (splitKlass eq q k).set, i.key = j.key ∧ i.idx = j.idx := by
  obtain ⟨same, other, hsame, hother, hfirst, heq⟩ :=
    splitKlass_eq eq q (hq.head k hkq) (hrefl k.key)
  rw [heq]
  have hmem : ∀ c, c ∈ other ↔ c ∈ k.items ∧ eq c k.key = false := by
    intro c
    rw [hother.mem_iff, List.mem_filter, Bool.not_eq_true']
  -- the items that leave make a partition of their own
  have hstart : Sound eq (fun _ => False) (q.set.map Klass.idx) { q with set := [] } :=
    sound_nothing eq _ (by
      have hidxs := hq.idxs
      rwa [List.append_nil] at hidxs)
  have hdelta := hstart.appendAll hrefl hsymm other (fun _ _ h => h)
    (hother.nodup_iff.mpr ((hq.nodup k hkq).filter _))
  set delta := other.foldl (Partition.doAppend eq) { q with set := [] } with hdeltaEq
  have hdinv : ∀ c, c ∉ other → delta.inv c = q.inv c :=
    fun c hc => appendAll_inv_of_notMem eq other _ hc
  have hkey : ∀ j ∈ delta.set, j.key ∈ other := by
    intro j hj
    exact ((hdelta.cover _).mpr ⟨j, hj, hdelta.key_mem hj⟩).resolve_right id
  have hpk : ∀ c ∈ other, p.inv c = some k.key := fun c hc => hp.inv k hkp c ((hmem c).mp hc).1
  have hin : ∀ c ∈ other, ∀ d, splitting eq p (k.key :: done) c d = eq c d :=
    fun c hc d => splitting_done List.mem_cons_self (hpk c hc)
  have hleft : Sound (splitting eq p (k.key :: done)) (fun c => c ∈ other ∨ False)
      (q.set.map Klass.idx) delta := by
    refine hdelta.change ?_ ?_
    · intro j hj c _ hjc
      rw [hin _ (hkey j hj)]
      exact hjc
    · intro i hi j hj hij
      rw [hin _ (hkey i hi)] at hij
      exact hdelta.apart i hi j hj hij
  -- some of the new classes are visited in turn
  have hvisit : ∀ j ∈ delta.set, (revisit eq k j).items.Perm j.items ∧
      (revisit eq k j).items.head? = j.items.head? := by
    intro j hj
    refine revisit_items fun first hf c hc => ?_
    rw [hdelta.head j hj] at hf
    obtain rfl := Option.some.inj hf
    exact hsymm _ _ (hdelta.same j hj c hc)
  have hvisited := hleft.rearrange (fun j _ => revisit_key eq k j) (fun j _ => revisit_idx eq k j)
    (fun j hj => (hvisit j hj).1) (fun j hj => (hvisit j hj).2)
  set new := delta.set.map (revisit eq k)
  have hnewKey : ∀ j ∈ new, j.key ∈ other := by
    intro j hj
    obtain ⟨i, hi, rfl⟩ := List.mem_map.mp hj
    rw [revisit_key]
    exact hkey i hi
  have hright := sound_shrink hp hq hsymm hrefine hkq hkp hnew hsame hfirst
    (fun c hc => hdinv c fun h => hc ((hmem c).mp h))
    (List.perm_append_comm.trans hvisited.idxs)
  have hshrink : ∀ j, j ∈ shrink q.set k same ↔
      j = { k with items := same } ∨ (j ∈ q.set ∧ j.key ≠ k.key) :=
    fun j => mem_shrink (fun i hi hik => hq.eq_of_key hi hkq hik) hkq
  have hapart : ∀ i ∈ new, ∀ j ∈ shrink q.set k same, i.key ≠ j.key ∧
      splitting eq p (k.key :: done) i.key j.key = false ∧
      splitting eq p (k.key :: done) j.key i.key = false := by
    intro i hi j hj
    have hik := hnewKey i hi
    have hiD : D i.key := (hq.cover _).mpr ⟨k, hkq, ((hmem _).mp hik).1⟩
    have hie : eq i.key k.key = false := ((hmem _).mp hik).2
    rw [hin _ hik]
    rcases (hshrink j).mp hj with rfl | ⟨hj, hjk⟩
    · refine ⟨?_, hie, ?_⟩
      · intro he
        rw [show i.key = k.key from he, hrefl] at hie
        exact Bool.noConfusion hie
      · show splitting eq p (k.key :: done) k.key i.key = false
        rw [splitting_done List.mem_cons_self (hp.inv_key hkp), Bool.eq_false_iff]
        intro he
        rw [hsymm _ _ he] at hie
        exact Bool.noConfusion hie
    · have hjD : D j.key := (hq.cover _).mpr ⟨j, hj, hq.key_mem hj⟩
      have hne : p.inv j.key ≠ p.inv i.key := by
        rw [hpk _ hik]
        exact inv_key_ne_of_splitting hp hq hkq hkp hnew hj hjk
      refine ⟨fun he => hne (by rw [he]), ?_, ?_⟩
      · rw [Bool.eq_false_iff]
        exact fun he => hne (hrefine _ _ hiD hjD he).symm
      · rw [Bool.eq_false_iff]
        exact fun he => hne (splitting_of_sameKlass hrefine hjD hiD he)
  have hjoin := Sound.join (l := new) (r := shrink q.set k same)
    (by rw [map_idx_shrink]; exact hvisited) hright hapart
  have hD : (fun c => (c ∈ other ∨ False) ∨
      (D c ∧ ¬ (c ∈ k.items ∧ eq c k.key = false))) = D := by
    funext c
    rw [or_false, ← hmem, eq_iff_iff]
    have hsub : c ∈ other → D c := fun hc => (hq.cover c).mpr ⟨k, hkq, ((hmem c).mp hc).1⟩
    tauto
  rw [hD] at hjoin
  have hperm := (foldl_insertKlass_perm new (shrink q.set k same)).symm
  refine ⟨hjoin.of_perm hperm, ?_, ?_⟩
  · intro j hj hjk
    exact hperm.mem_iff.mp (List.mem_append_right _ ((hshrink j).mpr (Or.inr ⟨hj, hjk⟩)))
  · intro j hj
    by_cases hjk : j.key = k.key
    · rw [hq.eq_of_key hj hkq hjk]
      exact ⟨{ k with items := same },
        hperm.mem_iff.mp (List.mem_append_right _ ((hshrink _).mpr (Or.inl rfl))), rfl, rfl⟩
    · exact ⟨j, hperm.mem_iff.mp (List.mem_append_right _ ((hshrink j).mpr (Or.inr ⟨hj, hjk⟩))),
        rfl, rfl⟩

end Step

section Run

variable [StdPartition T] {eq₀ : T → T → Bool} (hp : Sound eq₀ D [] p)
  (hrefl : ∀ a, eq a a = true) (hsymm : ∀ a b, eq a b = true → eq b a = true)
  (hrefine : ∀ a b, D a → D b → eq a b = true → p.inv a = p.inv b)

include hp hrefl hsymm hrefine

/-- Several classes are split, one after the other. -/
theorem Sound.splitKlasses (ks : List (Klass T)) (hq : Sound (splitting eq p done) D [] q)
    (hks : ∀ k ∈ ks, k ∈ q.set ∧ k ∈ p.set ∧ k.key ∉ done) (hnodup : (ks.map Klass.key).Nodup) :
    ∃ done', (∀ k ∈ ks, k.key ∈ done') ∧ (∀ d ∈ done, d ∈ done') ∧
      Sound (splitting eq p done') D [] (ks.foldl (Partition.splitKlass eq) q) ∧
      ∀ j ∈ q.set, ∃ i ∈ (ks.foldl (Partition.splitKlass eq) q).set,
        i.key = j.key ∧ i.idx = j.idx := by
  induction ks generalizing q done with
  | nil =>
    exact ⟨done, fun k hk => absurd hk List.not_mem_nil, fun d hd => hd, hq,
      fun j hj => ⟨j, hj, rfl, rfl⟩⟩
  | cons k ks ih =>
    rw [List.map_cons, List.nodup_cons] at hnodup
    obtain ⟨hkq, hkp, hnew⟩ := hks k List.mem_cons_self
    obtain ⟨hq', hkeep, hkeys⟩ := hp.splitKlass hq hrefl hsymm hrefine hkq hkp hnew
    obtain ⟨done', hall, hsub, hq'', hkeys'⟩ := ih hq' (by
      intro j hj
      obtain ⟨hjq, hjp, hjd⟩ := hks j (List.mem_cons_of_mem k hj)
      have hjk : j.key ≠ k.key := by
        intro he
        exact hnodup.1 (he ▸ List.mem_map_of_mem hj)
      exact ⟨hkeep j hjq hjk, hjp, fun hd => (List.mem_cons.mp hd).elim hjk hjd⟩) hnodup.2
    refine ⟨done', ?_, fun d hd => hsub d (List.mem_cons_of_mem _ hd), hq'', ?_⟩
    · intro j hj
      rcases List.mem_cons.mp hj with rfl | hj
      · exact hsub _ List.mem_cons_self
      · exact hall j hj
    · intro j hj
      obtain ⟨i, hi, hij, hidx⟩ := hkeys j hj
      obtain ⟨i', hi', hii, hidx'⟩ := hkeys' i hi
      exact ⟨i', hi', hii.trans hij, hidx'.trans hidx⟩

/-- The result of `Split` is sound for the new relation, and every class that was
there keeps its key and its index. -/
theorem Sound.split : Sound eq D [] (p.split eq) ∧
    ∀ j ∈ p.set, ∃ i ∈ (p.split eq).set, i.key = j.key ∧ i.idx = j.idx := by
  have hnone : splitting eq p [] = p.sameKlass := by
    funext a b
    exact if_neg fun ⟨k, hk, _⟩ => List.not_mem_nil hk
  have hstart : Sound (splitting eq p []) D [] p := by
    rw [hnone]
    exact hp.sameKlass
  obtain ⟨done, hall, -, hq, hkeys⟩ := hp.splitKlasses hrefl hsymm hrefine
    (p.set.filter fun k => 1 < k.items.length) hstart
    (fun k hk => ⟨(List.mem_filter.mp hk).1, (List.mem_filter.mp hk).1, List.not_mem_nil⟩)
    (hp.keys.sublist (List.filter_sublist.map Klass.key))
  refine ⟨hq.change ?_ ?_, hkeys⟩
  · intro j hj c hc hjc
    have hjD : D j.key := (hq.cover _).mpr ⟨j, hj, hq.key_mem hj⟩
    have hcD : D c := (hq.cover _).mpr ⟨j, hj, hc⟩
    have hinv := splitting_of_sameKlass hrefine hjD hcD hjc
    obtain ⟨K, hK, hjK, hi⟩ := hp.exists_klass hjD
    by_cases hlen : 1 < K.items.length
    · rwa [splitting_done (hall K (List.mem_filter.mpr ⟨hK, decide_eq_true hlen⟩)) hi] at hjc
    · -- a class of one item has nothing to split
      have hcK : c ∈ K.items := (hp.mem_items_iff hK hcD).mpr (hinv ▸ hi)
      have hsingle : K.items = [K.key] := by
        have hhead := hp.head K hK
        cases hitems : K.items with
        | nil => rw [hitems] at hcK; exact absurd hcK List.not_mem_nil
        | cons first others =>
          rw [hitems, List.head?_cons] at hhead
          rw [hitems, List.length_cons] at hlen
          rw [Option.some.inj hhead, List.eq_nil_of_length_eq_zero (by omega : others.length = 0)]
      rw [hsingle, List.mem_singleton] at hcK hjK
      rw [hcK, hjK]
      exact hrefl _
  · intro i hi j hj hij
    refine hq.apart i hi j hj ?_
    unfold splitting
    split
    · exact hij
    · unfold Partition.sameKlass
      rw [decide_eq_true_iff]
      exact hrefine _ _ ((hq.cover _).mpr ⟨i, hi, hq.key_mem hi⟩)
        ((hq.cover _).mpr ⟨j, hj, hq.key_mem hj⟩) hij

end Run

variable [StdPartition T]

theorem Sound.keys_subset_split {eq₀ : T → T → Bool} (hp : Sound eq₀ D [] p)
    (hrefl : ∀ a, eq a a = true) (hsymm : ∀ a b, eq a b = true → eq b a = true)
    (hrefine : ∀ a b, D a → D b → eq a b = true → p.inv a = p.inv b) :
    p.set.map Klass.key ⊆ (p.split eq).set.map Klass.key := by
  obtain ⟨-, hkeys⟩ := hp.split hrefl hsymm hrefine
  intro k hk
  obtain ⟨j, hj, rfl⟩ := List.mem_map.mp hk
  obtain ⟨i, hi, hij, -⟩ := hkeys j hj
  exact hij ▸ List.mem_map_of_mem hi

/-- Where no class more comes out, no item has another key. -/
theorem Sound.split_inv_of_size_le {eq₀ : T → T → Bool} (hp : Sound eq₀ D [] p)
    (hrefl : ∀ a, eq a a = true) (hsymm : ∀ a b, eq a b = true → eq b a = true)
    (hrefine : ∀ a b, D a → D b → eq a b = true → p.inv a = p.inv b)
    (hsize : (p.split eq).size ≤ p.size) {c : T} (hc : D c) : (p.split eq).inv c = p.inv c := by
  have hq := (hp.split hrefl hsymm hrefine).1
  have hsub := hp.keys_subset_split hrefl hsymm hrefine
  have hperm : (p.set.map Klass.key).Perm ((p.split eq).set.map Klass.key) := by
    refine (List.subperm_of_subset hp.keys hsub).perm_of_length_le ?_
    rw [List.length_map, List.length_map]
    exact hsize
  obtain ⟨i, hi, hci, hi'⟩ := hq.exists_klass hc
  obtain ⟨j, hj, hji⟩ := List.mem_map.mp (hperm.symm.subset (List.mem_map_of_mem hi))
  have hinv := hrefine i.key c ((hq.cover _).mpr ⟨i, hi, hq.key_mem hi⟩) hc (hq.same i hi c hci)
  rw [hi', ← hinv, ← hji, hp.inv_key hj]

end Split

end Partition
end Pire
end MediaServer
