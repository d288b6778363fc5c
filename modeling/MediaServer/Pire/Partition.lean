/-
Partitions into classes of equivalent items.

`append` puts an item into the first class whose key is equivalent to it, or
makes it the key of a new class, and `split` divides the classes by a finer
relation.  `Sound` says what a partition always is: every item has the key of
its class, the key is the first item of the class, the items of a class are
equivalent to its key and the keys to nothing but themselves, and the indices
are the numbers below the number of classes.
-/
import Mathlib.Data.List.Sort
import Mathlib.Data.List.Perm.Basic
import Mathlib.Logic.Function.Basic

namespace MediaServer
namespace Pire

/-- A class: its key, its index and its items. -/
structure Klass (T : Type) where
  key : T
  idx : Nat
  items : List T

/-- `set` is ordered by the keys, and `inv` gives the key of an item's class. -/
structure Partition (T : Type) where
  set : List (Klass T)
  inv : T → Option T
  maxidx : Nat

/-- `std::partition` of a standard library: the items with a property, and behind
them the others.  The standard leaves their order open.  An algorithm that swaps what
is out of place does not move a first item that has the property. -/
class StdPartition (T : Type) where
  partition : (T → Bool) → List T → List T × List T
  perm_fst : ∀ p items, (partition p items).1.Perm (items.filter p)
  perm_snd : ∀ p items, (partition p items).2.Perm (items.filter fun t => !p t)
  head : ∀ p first items, p first = true →
    (partition p (first :: items)).1.head? = some first

/-- The order that `std::stable_partition` would keep, for runs on fixed inputs. -/
instance (priority := low) StdPartition.stable (T : Type) : StdPartition T where
  partition p items := (items.filter p, items.filter fun t => !p t)
  perm_fst _ _ := List.Perm.refl _
  perm_snd _ _ := List.Perm.refl _
  head p first items h := by
    show (List.filter p (first :: items)).head? = some first
    rw [List.filter_cons_of_pos h, List.head?_cons]

namespace Partition

variable {T : Type}

def empty : Partition T where
  set := []
  inv := fun _ => none
  maxidx := 0

def size (p : Partition T) : Nat := p.set.length

def contains (p : Partition T) (t : T) : Bool := (p.inv t).isSome

/-- The key of the class of `t`.  For an item that is in no class it is the
default value of its type. -/
def representative [Inhabited T] (p : Partition T) (t : T) : T := (p.inv t).getD default

/-- The index of the class of `t`, nothing where the code throws. -/
def index [DecidableEq T] (p : Partition T) (t : T) : Option Nat :=
  (p.inv t).bind fun key => (p.set.find? fun k => k.key = key).map Klass.idx

/-- The classes with `t` at the end of the first one that `eq` finds it in, and
the key of that class. -/
def appendTo (eq : T → T → Bool) (t : T) : List (Klass T) → Option (List (Klass T) × T)
  | [] => none
  | k :: ks =>
    if eq k.key t then some ({ k with items := k.items ++ [t] } :: ks, k.key)
    else (appendTo eq t ks).map fun r => (k :: r.1, r.2)

section Operations

variable [LinearOrder T]

def insertKlass (set : List (Klass T)) (k : Klass T) : List (Klass T) :=
  set.orderedInsert (fun a b => a.key ≤ b.key) k

def doAppend (eq : T → T → Bool) (p : Partition T) (t : T) : Partition T :=
  match appendTo eq t p.set with
  | some (set, key) => { p with set := set, inv := Function.update p.inv t (some key) }
  | none =>
    { set := insertKlass p.set ⟨t, p.maxidx, [t]⟩
      inv := Function.update p.inv t (some t)
      maxidx := p.maxidx + 1 }

def append (eq : T → T → Bool) (p : Partition T) (t : T) : Partition T := doAppend eq p t

variable [StdPartition T]

/-- The loop comes to `j`, a class that it has itself inserted behind `k`.  The
items of `j` are equivalent, so all that `std::partition` can do is to order them. -/
def revisit (eq : T → T → Bool) (k j : Klass T) : Klass T :=
  match j.items with
  | [] => j
  | first :: _ =>
    if k.key < j.key ∧ 1 < j.items.length then
      { j with items := (StdPartition.partition (fun t => eq t first) j.items).1 }
    else j

/-- `k` with some of its items only. -/
def shrink (set : List (Klass T)) (k : Klass T) (items : List T) : List (Klass T) :=
  set.map fun j => if j.key = k.key then { j with items := items } else j

/-- The items that are not equivalent to the first one leave the class for new
classes. -/
def splitKlass (eq : T → T → Bool) (p : Partition T) (k : Klass T) : Partition T :=
  match k.items with
  | [] => p
  | first :: _ =>
    let (same, other) := StdPartition.partition (fun t => eq t first) k.items
    if other = [] then { p with set := shrink p.set k same }
    else
      let delta := other.foldl (doAppend eq) { p with set := [] }
      { delta with
        set := (delta.set.map (revisit eq k)).foldl insertKlass (shrink p.set k same) }

def split (eq : T → T → Bool) (p : Partition T) : Partition T :=
  (p.set.filter fun k => 1 < k.items.length).foldl (splitKlass eq) p

end Operations

/-! ## What a partition is -/

/-- The invariant of a partition of the items `D` by `eq`.  The indices that
`rest` lists belong to classes outside of `p`. -/
structure Sound (eq : T → T → Bool) (D : T → Prop) (rest : List Nat) (p : Partition T) :
    Prop where
  inv : ∀ k ∈ p.set, ∀ c ∈ k.items, p.inv c = some k.key
  cover : ∀ c, D c ↔ ∃ k ∈ p.set, c ∈ k.items
  head : ∀ k ∈ p.set, k.items.head? = some k.key
  nodup : ∀ k ∈ p.set, k.items.Nodup
  keys : (p.set.map Klass.key).Nodup
  idxs : (p.set.map Klass.idx ++ rest).Perm (List.range p.maxidx)
  same : ∀ k ∈ p.set, ∀ c ∈ k.items, eq k.key c = true
  apart : ∀ k ∈ p.set, ∀ j ∈ p.set, eq k.key j.key = true → k.key = j.key

namespace Sound

variable {eq : T → T → Bool} {D : T → Prop} {rest : List Nat} {p : Partition T}

theorem key_mem (h : Sound eq D rest p) {k : Klass T} (hk : k ∈ p.set) : k.key ∈ k.items := by
  have hh := h.head k hk
  cases hi : k.items with
  | nil => rw [hi] at hh; exact absurd hh (by simp)
  | cons first others =>
    rw [hi, List.head?_cons] at hh
    rw [Option.some.inj hh]
    exact List.mem_cons_self

theorem inv_key (h : Sound eq D rest p) {k : Klass T} (hk : k ∈ p.set) :
    p.inv k.key = some k.key :=
  h.inv k hk k.key (h.key_mem hk)

theorem eq_of_key (h : Sound eq D rest p) {k j : Klass T} (hk : k ∈ p.set) (hj : j ∈ p.set)
    (hkey : k.key = j.key) : k = j :=
  List.inj_on_of_nodup_map h.keys hk hj hkey

theorem mem_items_iff (h : Sound eq D rest p) {k : Klass T} (hk : k ∈ p.set) {c : T}
    (hc : D c) : c ∈ k.items ↔ p.inv c = some k.key := by
  constructor
  · exact h.inv k hk c
  · intro hi
    obtain ⟨j, hj, hcj⟩ := (h.cover c).mp hc
    have hkey : some j.key = some k.key := by rw [← h.inv j hj c hcj, hi]
    rw [← h.eq_of_key hj hk (Option.some.inj hkey)]
    exact hcj

theorem exists_klass (h : Sound eq D rest p) {c : T} (hc : D c) :
    ∃ k ∈ p.set, c ∈ k.items ∧ p.inv c = some k.key := by
  obtain ⟨k, hk, hck⟩ := (h.cover c).mp hc
  exact ⟨k, hk, hck, h.inv k hk c hck⟩

/-- Two items have the same key exactly when they are equivalent. -/
theorem inv_eq_iff (h : Sound eq D rest p) (hsymm : ∀ a b, eq a b = true → eq b a = true)
    (htrans : ∀ a b c, eq a b = true → eq b c = true → eq a c = true) {c d : T} (hc : D c)
    (hd : D d) : p.inv c = p.inv d ↔ eq c d = true := by
  obtain ⟨k, hk, hck, hci⟩ := h.exists_klass hc
  obtain ⟨j, hj, hdj, hdi⟩ := h.exists_klass hd
  rw [hci, hdi, Option.some.injEq]
  constructor
  · intro hkey
    have hjd := h.same j hj d hdj
    rw [← hkey] at hjd
    exact htrans _ _ _ (hsymm _ _ (h.same k hk c hck)) hjd
  · intro hcd
    have hkd := htrans _ _ _ (h.same k hk c hck) hcd
    exact h.apart k hk j hj (htrans _ _ _ hkd (hsymm _ _ (h.same j hj d hdj)))

/-- The number of an item's class is the index of the class, below the number of
classes when all of them are here. -/
theorem index_eq [DecidableEq T] (h : Sound eq D rest p) {k : Klass T} (hk : k ∈ p.set) {c : T}
    (hc : c ∈ k.items) : p.index c = some k.idx := by
  unfold index
  rw [h.inv k hk c hc, Option.bind_some]
  obtain ⟨j, hj⟩ : ∃ j, p.set.find? (fun j => j.key = k.key) = some j := by
    apply Option.isSome_iff_exists.mp
    rw [List.find?_isSome]
    exact ⟨k, hk, decide_eq_true rfl⟩
  have hkey : j.key = k.key := by simpa using List.find?_some hj
  have hjk : j = k := h.eq_of_key (List.mem_of_find?_eq_some hj) hk hkey
  rw [hj, hjk, Option.map_some]

theorem idx_lt (h : Sound eq D [] p) {k : Klass T} (hk : k ∈ p.set) : k.idx < p.size := by
  have hmax : p.maxidx = p.size := by
    have hl := h.idxs.length_eq
    simp only [List.append_nil, List.length_map, List.length_range] at hl
    exact hl.symm
  rw [← hmax, ← List.mem_range]
  apply h.idxs.subset
  rw [List.append_nil]
  exact List.mem_map_of_mem hk

theorem idx_inj (h : Sound eq D rest p) {k j : Klass T} (hk : k ∈ p.set) (hj : j ∈ p.set)
    (hidx : k.idx = j.idx) : k = j := by
  have hnd : (p.set.map Klass.idx).Nodup :=
    (List.nodup_append.mp (h.idxs.nodup_iff.mpr List.nodup_range)).1
  exact List.inj_on_of_nodup_map hnd hk hj hidx

/-- Every number below the number of classes is the index of a class. -/
theorem exists_idx (h : Sound eq D [] p) {i : Nat} (hi : i < p.size) : ∃ k ∈ p.set, k.idx = i := by
  have hmax : p.maxidx = p.size := by
    have hl := h.idxs.length_eq
    simp only [List.append_nil, List.length_map, List.length_range] at hl
    exact hl.symm
  have hmem : i ∈ p.set.map Klass.idx ++ [] := by
    apply h.idxs.symm.subset
    rw [List.mem_range, hmax]
    exact hi
  rw [List.append_nil] at hmem
  obtain ⟨k, hk, hki⟩ := List.mem_map.mp hmem
  exact ⟨k, hk, hki⟩

end Sound

/-! ## Appending -/

theorem appendTo_none {eq : T → T → Bool} {t : T} {set : List (Klass T)}
    (h : appendTo eq t set = none) : ∀ k ∈ set, eq k.key t = false := by
  induction set with
  | nil => intro k hk; exact absurd hk List.not_mem_nil
  | cons j js ih =>
    unfold appendTo at h
    split at h
    · exact absurd h (Option.some_ne_none _)
    · rename_i hj
      intro k hk
      rcases List.mem_cons.mp hk with rfl | hk
      · exact Bool.eq_false_iff.mpr hj
      · exact ih (Option.map_eq_none_iff.mp h) k hk

/-- The class that takes the item, between those before and those behind it. -/
theorem appendTo_some {eq : T → T → Bool} {t key : T} {set set' : List (Klass T)}
    (h : appendTo eq t set = some (set', key)) :
    ∃ l k r, set = l ++ k :: r ∧ set' = l ++ { k with items := k.items ++ [t] } :: r ∧
      key = k.key ∧ eq k.key t = true := by
  induction set generalizing set' with
  | nil => exact absurd h.symm (Option.some_ne_none _)
  | cons j js ih =>
    unfold appendTo at h
    split at h
    · rename_i hj
      obtain ⟨rfl, rfl⟩ := Prod.mk.inj (Option.some.inj h)
      exact ⟨[], j, js, rfl, rfl, rfl, hj⟩
    · obtain ⟨⟨set'', key''⟩, h', hr⟩ := Option.map_eq_some_iff.mp h
      obtain ⟨rfl, rfl⟩ := Prod.mk.inj hr
      obtain ⟨l, k, r, rfl, rfl, hkey, hk⟩ := ih h'
      exact ⟨j :: l, k, r, rfl, rfl, hkey, hk⟩

/-- The order of the items behind the first is of no account. -/
theorem Sound.rearrange {eq : T → T → Bool} {D : T → Prop} {rest : List Nat} {p : Partition T}
    (h : Sound eq D rest p) {f : Klass T → Klass T} (hkey : ∀ k ∈ p.set, (f k).key = k.key)
    (hidx : ∀ k ∈ p.set, (f k).idx = k.idx) (hitems : ∀ k ∈ p.set, (f k).items.Perm k.items)
    (hhead : ∀ k ∈ p.set, (f k).items.head? = k.items.head?) :
    Sound eq D rest { p with set := p.set.map f } where
  inv j hj c hc := by
    obtain ⟨k, hk, rfl⟩ := List.mem_map.mp hj
    rw [hkey k hk]
    exact h.inv k hk c ((hitems k hk).mem_iff.mp hc)
  cover c := by
    rw [h.cover c]
    constructor
    · rintro ⟨k, hk, hc⟩
      exact ⟨f k, List.mem_map_of_mem hk, (hitems k hk).mem_iff.mpr hc⟩
    · rintro ⟨j, hj, hc⟩
      obtain ⟨k, hk, rfl⟩ := List.mem_map.mp hj
      exact ⟨k, hk, (hitems k hk).mem_iff.mp hc⟩
  head j hj := by
    obtain ⟨k, hk, rfl⟩ := List.mem_map.mp hj
    rw [hhead k hk, hkey k hk]
    exact h.head k hk
  nodup j hj := by
    obtain ⟨k, hk, rfl⟩ := List.mem_map.mp hj
    exact (hitems k hk).nodup_iff.mpr (h.nodup k hk)
  keys := by
    rw [List.map_map, List.map_congr_left (f := Klass.key ∘ f) (g := Klass.key) hkey]
    exact h.keys
  idxs := by
    rw [List.map_map, List.map_congr_left (f := Klass.idx ∘ f) (g := Klass.idx) hidx]
    exact h.idxs
  same j hj c hc := by
    obtain ⟨k, hk, rfl⟩ := List.mem_map.mp hj
    rw [hkey k hk]
    exact h.same k hk c ((hitems k hk).mem_iff.mp hc)
  apart i hi j hj hij := by
    obtain ⟨k, hk, rfl⟩ := List.mem_map.mp hi
    obtain ⟨l, hl, rfl⟩ := List.mem_map.mp hj
    rw [hkey k hk, hkey l hl] at hij ⊢
    exact h.apart k hk l hl hij

theorem Sound.of_perm {eq : T → T → Bool} {D : T → Prop} {rest : List Nat} {p : Partition T}
    {set : List (Klass T)} (h : Sound eq D rest p) (hp : p.set.Perm set) :
    Sound eq D rest { p with set := set } where
  inv k hk := h.inv k (hp.mem_iff.mpr hk)
  cover c := by simp only [h.cover c, hp.mem_iff]
  head k hk := h.head k (hp.mem_iff.mpr hk)
  nodup k hk := h.nodup k (hp.mem_iff.mpr hk)
  keys := (hp.map Klass.key).nodup_iff.mp h.keys
  idxs := ((hp.map Klass.idx).append_right rest).symm.trans h.idxs
  same k hk := h.same k (hp.mem_iff.mpr hk)
  apart k hk j hj := h.apart k (hp.mem_iff.mpr hk) j (hp.mem_iff.mpr hj)

section Append

variable {eq : T → T → Bool} {D : T → Prop} {rest : List Nat} {p : Partition T}

/-- A class takes an item that is equivalent to its key. -/
theorem Sound.grow (h : Sound eq D rest p) {t : T} (ht : ¬ D t) {l r : List (Klass T)}
    {k k' : Klass T} (hset : p.set = l ++ k :: r) (hkt : eq k.key t = true)
    (hkey : k'.key = k.key) (hidx : k'.idx = k.idx) (hitems : k'.items = k.items ++ [t])
    {inv : T → Option T} (ht' : inv t = some k.key) (hinv : ∀ c, c ≠ t → inv c = p.inv c) :
    Sound eq (fun c => c = t ∨ D c) rest { p with set := l ++ k' :: r, inv := inv } := by
  have hne : ∀ j ∈ p.set, ∀ c ∈ j.items, c ≠ t := by
    rintro j hj c hc rfl
    exact ht ((h.cover c).mpr ⟨j, hj, hc⟩)
  have hk : k ∈ p.set := by rw [hset]; exact List.mem_append_right l List.mem_cons_self
  have hold : ∀ j, j ∈ l ∨ j ∈ r → j ∈ p.set := by
    intro j hj
    rw [hset, List.mem_append, List.mem_cons]
    tauto
  have hmem : ∀ j, j ∈ l ++ k' :: r ↔ (j ∈ l ∨ j ∈ r) ∨ j = k' := by
    intro j
    rw [List.mem_append, List.mem_cons]
    tauto
  have hkeys : (l ++ k' :: r).map Klass.key = p.set.map Klass.key := by
    rw [hset, List.map_append, List.map_append, List.map_cons, List.map_cons, hkey]
  have hidxs : (l ++ k' :: r).map Klass.idx = p.set.map Klass.idx := by
    rw [hset, List.map_append, List.map_append, List.map_cons, List.map_cons, hidx]
  refine ⟨?_, ?_, ?_, ?_, by rw [hkeys]; exact h.keys, by rw [hidxs]; exact h.idxs, ?_, ?_⟩
  · intro j hj c hc
    show inv c = some j.key
    rcases (hmem j).mp hj with hj | rfl
    · rw [hinv c (hne j (hold j hj) c hc)]
      exact h.inv j (hold j hj) c hc
    · rw [hitems] at hc
      rw [hkey]
      rcases List.mem_append.mp hc with hc | hc
      · rw [hinv c (hne k hk c hc)]
        exact h.inv k hk c hc
      · rw [List.mem_singleton.mp hc, ht']
  · intro c
    show c = t ∨ D c ↔ ∃ j ∈ l ++ k' :: r, c ∈ j.items
    constructor
    · rintro (rfl | hc)
      · refine ⟨k', (hmem _).mpr (Or.inr rfl), ?_⟩
        rw [hitems]
        exact List.mem_append_right _ (List.mem_singleton_self c)
      · obtain ⟨j, hj, hcj⟩ := (h.cover c).mp hc
        rw [hset, List.mem_append, List.mem_cons] at hj
        rcases hj with hj | rfl | hj
        · exact ⟨j, (hmem j).mpr (Or.inl (Or.inl hj)), hcj⟩
        · refine ⟨k', (hmem _).mpr (Or.inr rfl), ?_⟩
          rw [hitems]
          exact List.mem_append_left _ hcj
        · exact ⟨j, (hmem j).mpr (Or.inl (Or.inr hj)), hcj⟩
    · rintro ⟨j, hj, hcj⟩
      rcases (hmem j).mp hj with hj | rfl
      · exact Or.inr ((h.cover c).mpr ⟨j, hold j hj, hcj⟩)
      · rw [hitems, List.mem_append, List.mem_singleton] at hcj
        rcases hcj with hc | hc
        · exact Or.inr ((h.cover c).mpr ⟨k, hk, hc⟩)
        · exact Or.inl hc
  · intro j hj
    rcases (hmem j).mp hj with hj | rfl
    · exact h.head j (hold j hj)
    · rw [hitems, List.head?_append, h.head k hk, hkey]
      rfl
  · intro j hj
    rcases (hmem j).mp hj with hj | rfl
    · exact h.nodup j (hold j hj)
    · rw [hitems]
      refine List.nodup_append.mpr ⟨h.nodup k hk, List.nodup_singleton t, ?_⟩
      intro a ha b hb
      rw [List.mem_singleton.mp hb]
      exact hne k hk a ha
  · intro j hj c hc
    rcases (hmem j).mp hj with hj | rfl
    · exact h.same j (hold j hj) c hc
    · rw [hitems, List.mem_append, List.mem_singleton] at hc
      rw [hkey]
      rcases hc with hc | rfl
      · exact h.same k hk c hc
      · exact hkt
  · intro i hi j hj hij
    have hclass : ∀ j, j ∈ l ++ k' :: r → ∃ j' ∈ p.set, j'.key = j.key := by
      intro j hj
      rcases (hmem j).mp hj with hj | rfl
      · exact ⟨j, hold j hj, rfl⟩
      · exact ⟨k, hk, hkey.symm⟩
    obtain ⟨i', hi', hii⟩ := hclass i hi
    obtain ⟨j', hj', hjj⟩ := hclass j hj
    rw [← hii, ← hjj] at hij ⊢
    exact h.apart i' hi' j' hj' hij

/-- An item that is equivalent to no key begins a class. -/
theorem Sound.begin (h : Sound eq D rest p) (hrefl : ∀ a, eq a a = true)
    (hsymm : ∀ a b, eq a b = true → eq b a = true) {t : T} (ht : ¬ D t)
    (hno : ∀ k ∈ p.set, eq k.key t = false) {inv : T → Option T} (ht' : inv t = some t)
    (hinv : ∀ c, c ≠ t → inv c = p.inv c) :
    Sound eq (fun c => c = t ∨ D c) rest
      ⟨⟨t, p.maxidx, [t]⟩ :: p.set, inv, p.maxidx + 1⟩ := by
  have hne : ∀ j ∈ p.set, ∀ c ∈ j.items, c ≠ t := by
    rintro j hj c hc rfl
    exact ht ((h.cover c).mpr ⟨j, hj, hc⟩)
  refine ⟨?_, ?_, ?_, ?_, ?_, ?_, ?_, ?_⟩
  · intro k hk c hc
    show inv c = some k.key
    rcases List.mem_cons.mp hk with rfl | hk
    · rw [List.mem_singleton.mp hc, ht']
    · rw [hinv c (hne k hk c hc)]
      exact h.inv k hk c hc
  · intro c
    simp only [List.mem_cons, exists_eq_or_imp, List.not_mem_nil, or_false, h.cover c]
  · intro k hk
    rcases List.mem_cons.mp hk with rfl | hk
    · rfl
    · exact h.head k hk
  · intro k hk
    rcases List.mem_cons.mp hk with rfl | hk
    · exact List.nodup_singleton t
    · exact h.nodup k hk
  · show (t :: p.set.map Klass.key).Nodup
    refine List.nodup_cons.mpr ⟨?_, h.keys⟩
    intro hmem
    obtain ⟨k, hk, hkt⟩ := List.mem_map.mp hmem
    exact hne k hk k.key (h.key_mem hk) hkt
  · show (p.maxidx :: (p.set.map Klass.idx ++ rest)).Perm (List.range (p.maxidx + 1))
    rw [List.range_succ]
    exact (List.Perm.cons _ h.idxs).trans (List.perm_append_singleton _ _).symm
  · intro k hk c hc
    rcases List.mem_cons.mp hk with rfl | hk
    · rw [List.mem_singleton.mp hc]
      exact hrefl t
    · exact h.same k hk c hc
  · intro k hk j hj hkj
    rcases List.mem_cons.mp hk with rfl | hk
    · rcases List.mem_cons.mp hj with rfl | hj
      · rfl
      · have hjt := hsymm _ _ hkj
        rw [hno j hj] at hjt
        exact absurd hjt Bool.false_ne_true
    · rcases List.mem_cons.mp hj with rfl | hj
      · rw [hno k hk] at hkj
        exact absurd hkj Bool.false_ne_true
      · exact h.apart k hk j hj hkj

variable [LinearOrder T]

theorem doAppend_inv_of_ne (eq : T → T → Bool) (p : Partition T) {t c : T} (hc : c ≠ t) :
    (doAppend eq p t).inv c = p.inv c := by
  unfold doAppend
  split
  · exact Function.update_of_ne hc _ _
  · exact Function.update_of_ne hc _ _

theorem Sound.doAppend (h : Sound eq D rest p) (hrefl : ∀ a, eq a a = true)
    (hsymm : ∀ a b, eq a b = true → eq b a = true) {t : T} (ht : ¬ D t) :
    Sound eq (fun c => c = t ∨ D c) rest (doAppend eq p t) := by
  have hupdate : ∀ v c, c ≠ t → Function.update p.inv t v c = p.inv c :=
    fun v c hc => Function.update_of_ne hc v p.inv
  unfold Partition.doAppend
  split
  · rename_i set key happend
    obtain ⟨l, k, r, hset, rfl, rfl, hkt⟩ := appendTo_some happend
    have hkey : ({ k with items := k.items ++ [t] } : Klass T).key = k.key := rfl
    exact h.grow ht hset hkt hkey rfl rfl (Function.update_self _ _ _) (hupdate _)
  · rename_i happend
    -- the order of the classes is of no account, so the new one may stand first
    have hfirst := h.begin hrefl hsymm ht (appendTo_none happend)
      (Function.update_self t (some t) p.inv) (hupdate _)
    exact hfirst.of_perm (List.perm_orderedInsert _ _ _).symm

/-- A class keeps its key and its index when an item is appended. -/
theorem doAppend_keeps (eq : T → T → Bool) (p : Partition T) (t : T) {k : Klass T}
    (hk : k ∈ p.set) : ∃ j ∈ (doAppend eq p t).set, j.key = k.key ∧ j.idx = k.idx := by
  unfold doAppend
  split
  · rename_i set key happend
    obtain ⟨l, i, r, hset, rfl, -, -⟩ := appendTo_some happend
    rw [hset, List.mem_append, List.mem_cons] at hk
    rcases hk with hk | rfl | hk
    · exact ⟨k, List.mem_append_left _ hk, rfl, rfl⟩
    · exact ⟨_, List.mem_append_right _ List.mem_cons_self, rfl, rfl⟩
    · exact ⟨k, List.mem_append_right _ (List.mem_cons_of_mem _ hk), rfl, rfl⟩
  · exact ⟨k, (List.perm_orderedInsert _ _ _).mem_iff.mpr (List.mem_cons_of_mem _ hk), rfl, rfl⟩

/-- The first item that is ever appended is the key of the class of index zero. -/
theorem ofItems_first (eq : T → T → Bool) (t : T) (items : List T) :
    ∃ k ∈ ((t :: items).foldl (append eq) empty).set, k.key = t ∧ k.idx = 0 := by
  have hrun : ∀ (items : List T) (p : Partition T), (∃ k ∈ p.set, k.key = t ∧ k.idx = 0) →
      ∃ k ∈ (items.foldl (append eq) p).set, k.key = t ∧ k.idx = 0 := by
    intro items
    induction items with
    | nil => exact fun _ h => h
    | cons u items ih =>
      rintro p ⟨k, hk, hkey, hidx⟩
      obtain ⟨j, hj, hjk, hji⟩ := doAppend_keeps eq p u hk
      exact ih _ ⟨j, hj, hjk.trans hkey, hji.trans hidx⟩
  exact hrun items _ ⟨⟨t, 0, [t]⟩, List.mem_singleton_self _, rfl, rfl⟩

/-- Appending new items one after the other. -/
theorem Sound.appendAll (hrefl : ∀ a, eq a a = true)
    (hsymm : ∀ a b, eq a b = true → eq b a = true) (items : List T) (h : Sound eq D rest p)
    (hnew : ∀ t ∈ items, ¬ D t) (hnodup : items.Nodup) :
    Sound eq (fun c => c ∈ items ∨ D c) rest (items.foldl (Partition.doAppend eq) p) := by
  induction items generalizing p D with
  | nil =>
    have hD : (fun c => c ∈ ([] : List T) ∨ D c) = D := by
      funext c; simp only [List.not_mem_nil, false_or]
    rw [hD]
    exact h
  | cons t items ih =>
    rw [List.nodup_cons] at hnodup
    have h' := ih (h.doAppend hrefl hsymm (hnew t List.mem_cons_self)) (by
      intro c hc hor
      rcases hor with rfl | hD
      · exact hnodup.1 hc
      · exact hnew c (List.mem_cons_of_mem t hc) hD) hnodup.2
    have hD : (fun c => c ∈ t :: items ∨ D c) = fun c => c ∈ items ∨ (c = t ∨ D c) := by
      funext c
      simp only [List.mem_cons, eq_iff_iff]
      tauto
    rw [hD]
    exact h'

theorem appendAll_inv_of_notMem (eq : T → T → Bool) (items : List T) (p : Partition T) {c : T}
    (hc : c ∉ items) : (items.foldl (Partition.doAppend eq) p).inv c = p.inv c := by
  induction items generalizing p with
  | nil => rfl
  | cons t items ih =>
    rw [List.mem_cons, not_or] at hc
    rw [List.foldl_cons, ih _ hc.2, doAppend_inv_of_ne eq p hc.1]

end Append

theorem sound_empty (eq : T → T → Bool) : Sound eq (fun _ => False) [] (empty (T := T)) where
  inv k hk := absurd hk List.not_mem_nil
  cover c := by simp only [empty, List.not_mem_nil, false_and, exists_false]
  head k hk := absurd hk List.not_mem_nil
  nodup k hk := absurd hk List.not_mem_nil
  keys := List.nodup_nil
  idxs := List.Perm.refl _
  same k hk := absurd hk List.not_mem_nil
  apart k hk := absurd hk List.not_mem_nil

/-- The classes of the items of a list. -/
theorem sound_ofItems [LinearOrder T] {eq : T → T → Bool} (hrefl : ∀ a, eq a a = true)
    (hsymm : ∀ a b, eq a b = true → eq b a = true) {items : List T} (hnodup : items.Nodup) :
    Sound eq (fun c => c ∈ items) [] (items.foldl (append eq) empty) := by
  have h := (sound_empty eq).appendAll hrefl hsymm items (fun _ _ hf => hf) hnodup
  have hD : (fun c => c ∈ items ∨ False) = fun c => c ∈ items := by
    funext c
    exact or_false _
  rw [hD] at h
  exact h

theorem ofItems_inv_of_notMem [LinearOrder T] (eq : T → T → Bool) {items : List T} {c : T}
    (hc : c ∉ items) : (items.foldl (append eq) empty).inv c = none :=
  appendAll_inv_of_notMem eq items empty hc

end Partition
end Pire
end MediaServer
