/-
Caches keyed by a value, and what a sequence of updates leaves in them.

An update either puts a value under one key or drops one key.  What a cache
holds under a key after any sequence of updates is decided by the last update
of that key, `applyAll_eq_last`, and everything else here is read off from it.
-/
import Mathlib.Logic.Function.Basic
import Mathlib.Data.List.Induction

namespace MediaServer
namespace Machine

variable {κ ν : Type}

inductive Update (κ ν : Type) where
  | put (key : κ) (value : ν)
  | drop (key : κ)

namespace Update

def key : Update κ ν → κ
  | put k _ => k
  | drop k => k

def value : Update κ ν → Option ν
  | put _ v => some v
  | drop _ => none

def map {μ : Type} (f : ν → μ) : Update κ ν → Update κ μ
  | put k v => put k (f v)
  | drop k => drop k

end Update

abbrev Cache (κ ν : Type) := κ → Option ν

namespace Cache

variable [DecidableEq κ]

def empty : Cache κ ν := fun _ => none

def apply (c : Cache κ ν) (u : Update κ ν) : Cache κ ν := Function.update c u.key u.value

def applyAll (c : Cache κ ν) (us : List (Update κ ν)) : Cache κ ν := us.foldl apply c

/-- The last update of `k` in a sequence. -/
def last (us : List (Update κ ν)) (k : κ) : Option (Update κ ν) :=
  us.reverse.find? fun u => decide (u.key = k)

@[simp] theorem apply_key (c : Cache κ ν) (u : Update κ ν) : c.apply u u.key = u.value :=
  Function.update_self ..

theorem apply_of_ne (c : Cache κ ν) (u : Update κ ν) {k : κ} (h : k ≠ u.key) :
    c.apply u k = c k :=
  Function.update_of_ne h ..

theorem applyAll_append (c : Cache κ ν) (us vs : List (Update κ ν)) :
    c.applyAll (us ++ vs) = (c.applyAll us).applyAll vs := List.foldl_append

theorem last_append_singleton (us : List (Update κ ν)) (u : Update κ ν) (k : κ) :
    last (us ++ [u]) k = if u.key = k then some u else last us k := by
  rw [last, List.reverse_append, List.reverse_singleton, List.singleton_append, List.find?_cons]
  by_cases h : u.key = k
  · simp [h]
  · simp [h, last]

/-- The last update of a key decides what the cache holds under it. -/
theorem applyAll_eq_last (c : Cache κ ν) (us : List (Update κ ν)) (k : κ) :
    c.applyAll us k = match last us k with
      | some u => u.value
      | none => c k := by
  induction us using List.reverseRecOn with
  | nil => rfl
  | append_singleton us u ih =>
    rw [applyAll_append, last_append_singleton]
    show (c.applyAll us).apply u k = _
    by_cases h : u.key = k
    · rw [if_pos h, ← h, apply_key]
    · rw [if_neg h, apply_of_ne _ u (Ne.symm h), ih]

theorem applyAll_drops (c : Cache κ ν) (ks : List κ) (k : κ) :
    c.applyAll (ks.map Update.drop) k = if k ∈ ks then none else c k := by
  induction ks generalizing c with
  | nil => rfl
  | cons a ks ih =>
    show (c.apply (Update.drop a)).applyAll (ks.map Update.drop) k = _
    rw [ih]
    by_cases hk : k ∈ ks
    · simp [hk]
    · by_cases ha : k = a
      · subst ha
        simp [hk, apply, Update.key, Update.value]
      · simp [hk, ha, apply_of_ne c (Update.drop a) ha]

theorem applyAll_puts (c : Cache κ ν) (ks : List κ) (v : ν) (k : κ) :
    c.applyAll (ks.map fun a => Update.put a v) k = if k ∈ ks then some v else c k := by
  induction ks generalizing c with
  | nil => rfl
  | cons a ks ih =>
    show (c.apply (Update.put a v)).applyAll (ks.map fun a => Update.put a v) k = _
    rw [ih]
    by_cases hk : k ∈ ks
    · simp [hk]
    · by_cases ha : k = a
      · subst ha
        simp [hk, apply, Update.key, Update.value]
      · simp [hk, ha, apply_of_ne c (Update.put a v) ha]

/-- When nothing is dropped, the cache holds exactly the keys that were put. -/
theorem applyAll_puts_eq_none (us : List (Update κ ν)) (hput : ∀ u ∈ us, u.value ≠ none)
    (k : κ) : (empty : Cache κ ν).applyAll us k = none ↔ ∀ u ∈ us, u.key ≠ k := by
  rw [applyAll_eq_last]
  cases hl : last us k with
  | none =>
    rw [last, List.find?_eq_none] at hl
    simp only [empty, true_iff]
    intro u hu
    simpa using hl u (List.mem_reverse.mpr hu)
  | some u =>
    have hu : u ∈ us := List.mem_reverse.mp (List.mem_of_find?_eq_some hl)
    have hk : u.key = k := by simpa using List.find?_some hl
    simp only [hput u hu, false_iff]
    exact fun h => h u hu hk

end Cache
end Machine
end MediaServer
