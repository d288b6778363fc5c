/-
Breadth-first search with a queue and a set of the vertices not met so far.

`notMem_search_iff` says which vertices are met when there is fuel for all of
them: those that can be reached from a start.
-/
import Mathlib.Data.Finset.Card
import Mathlib.Logic.Relation

namespace MediaServer
namespace Automata

universe u

variable {α : Type u} [DecidableEq α]

/-- The vertices of a list that have not been met join the queue. -/
def meet (queue : List α) (unmet : Finset α) : List α → List α × Finset α
  | [] => (queue, unmet)
  | t :: ts => if t ∈ unmet then meet (queue ++ [t]) (unmet.erase t) ts else meet queue unmet ts

/-- What has not been met in the end. -/
def search (next : α → List α) : Nat → List α → Finset α → Finset α
  | 0, _, unmet => unmet
  | _ + 1, [], unmet => unmet
  | fuel + 1, s :: queue, unmet =>
    search next fuel (meet queue unmet (next s)).1 (meet queue unmet (next s)).2

theorem meet_spec (queue : List α) (unmet : Finset α) (ts : List α) :
    (∀ s, s ∈ (meet queue unmet ts).2 ↔ s ∈ unmet ∧ s ∉ ts) ∧
      (∀ s, s ∈ (meet queue unmet ts).1 ↔ s ∈ queue ∨ (s ∈ unmet ∧ s ∈ ts)) ∧
      (meet queue unmet ts).1.length + (meet queue unmet ts).2.card =
        queue.length + unmet.card := by
  induction ts generalizing queue unmet with
  | nil => simp [meet]
  | cons t ts ih =>
    unfold meet
    by_cases ht : t ∈ unmet
    · rw [if_pos ht]
      obtain ⟨h1, h2, h3⟩ := ih (queue ++ [t]) (unmet.erase t)
      refine ⟨fun s => ?_, fun s => ?_, ?_⟩
      · rw [h1, Finset.mem_erase, List.mem_cons]
        tauto
      · rw [h2, Finset.mem_erase, List.mem_append, List.mem_singleton, List.mem_cons]
        have : s = t → s ∈ unmet := fun hst => hst ▸ ht
        tauto
      · have hpos := Finset.card_pos.mpr ⟨t, ht⟩
        rw [h3, List.length_append, List.length_singleton, Finset.card_erase_of_mem ht]
        omega
    · rw [if_neg ht]
      obtain ⟨h1, h2, h3⟩ := ih queue unmet
      refine ⟨fun s => ?_, fun s => ?_, h3⟩
      · rw [h1, List.mem_cons]
        have : s ∈ unmet → s ≠ t := fun hs hst => ht (hst ▸ hs)
        tauto
      · rw [h2, List.mem_cons]
        have : s ∈ unmet → s ≠ t := fun hs hst => ht (hst ▸ hs)
        tauto

section Search

variable {next : α → List α} {start : List α} {U : Finset α}

/-- Some start leads to `s`. -/
def Met (next : α → List α) (start : List α) (s : α) : Prop :=
  ∃ a ∈ start, Relation.ReflTransGen (fun s t => t ∈ next s) a s

/-- The state of the search among the vertices `U`. -/
structure Searching (next : α → List α) (start : List α) (U : Finset α) (queue : List α)
    (unmet : Finset α) : Prop where
  begun : ∀ a ∈ start, a ∉ unmet
  sound : ∀ s ∈ U, s ∉ unmet → Met next start s
  queued : ∀ s ∈ queue, s ∈ U ∧ s ∉ unmet
  /-- What has been met and is not waiting has been gone on from. -/
  closed : ∀ s ∈ U, s ∉ unmet → s ∉ queue → ∀ t ∈ next s, t ∉ unmet

theorem Searching.step (hU : ∀ s ∈ U, ∀ t ∈ next s, t ∈ U) {s : α} {queue : List α}
    {unmet : Finset α} (h : Searching next start U (s :: queue) unmet) :
    Searching next start U (meet queue unmet (next s)).1 (meet queue unmet (next s)).2 := by
  obtain ⟨h1, h2, -⟩ := meet_spec queue unmet (next s)
  obtain ⟨hsU, hs⟩ := h.queued s List.mem_cons_self
  refine ⟨?_, ?_, ?_, ?_⟩
  · intro a ha hmem
    exact h.begun a ha ((h1 a).mp hmem).1
  · intro t ht hmem
    rw [h1, not_and, not_not] at hmem
    by_cases htu : t ∈ unmet
    · obtain ⟨a, ha, hp⟩ := h.sound s hsU hs
      exact ⟨a, ha, hp.tail (hmem htu)⟩
    · exact h.sound t ht htu
  · intro t ht
    rw [h1, not_and, not_not]
    rcases (h2 t).mp ht with hq | ⟨-, hn⟩
    · obtain ⟨htU, htu⟩ := h.queued t (List.mem_cons_of_mem s hq)
      exact ⟨htU, fun hmem => absurd hmem htu⟩
    · exact ⟨hU s hsU t hn, fun _ => hn⟩
  · intro t ht hmem hq v hv
    rw [h1, not_and, not_not] at hmem
    rw [h2, not_or, not_and] at hq
    rw [h1, not_and, not_not]
    by_cases hts : t = s
    · intro _
      rwa [hts] at hv
    · have htu : t ∉ unmet := fun htu => hq.2 htu (hmem htu)
      intro hvu
      refine absurd hvu (h.closed t ht htu ?_ v hv)
      rw [List.mem_cons, not_or]
      exact ⟨hts, hq.1⟩

theorem Searching.search (hU : ∀ s ∈ U, ∀ t ∈ next s, t ∈ U) (fuel : Nat) {queue : List α}
    {unmet : Finset α} (h : Searching next start U queue unmet)
    (hfuel : queue.length + unmet.card ≤ fuel) :
    Searching next start U [] (Automata.search next fuel queue unmet) := by
  induction fuel generalizing queue unmet with
  | zero =>
    obtain rfl := List.eq_nil_of_length_eq_zero (show queue.length = 0 by omega)
    exact h
  | succ fuel ih =>
    cases queue with
    | nil => exact h
    | cons s queue =>
      obtain ⟨-, -, h3⟩ := meet_spec queue unmet (next s)
      rw [List.length_cons] at hfuel
      exact ih (h.step hU) (by omega)

/-- What a search over all of `U` has met: what can be reached. -/
theorem notMem_search_iff (next : α → List α) (start : List α)
    (hU : ∀ s ∈ U, ∀ t ∈ next s, t ∈ U) (hstart : ∀ a ∈ start, a ∈ U)
    (hnodup : start.Nodup) {s : α} (hs : s ∈ U) :
    s ∉ search next U.card start (U.filter fun s => s ∉ start) ↔ Met next start s := by
  have hbegin : Searching next start U start (U.filter fun s => s ∉ start) := by
    refine ⟨?_, ?_, ?_, ?_⟩
    · intro a ha hmem
      exact (Finset.mem_filter.mp hmem).2 ha
    · intro t ht hmem
      rw [Finset.mem_filter, not_and, not_not] at hmem
      exact ⟨t, hmem ht, Relation.ReflTransGen.refl⟩
    · intro t ht
      exact ⟨hstart t ht, fun hmem => (Finset.mem_filter.mp hmem).2 ht⟩
    · intro t ht hmem hq
      rw [Finset.mem_filter, not_and, not_not] at hmem
      exact absurd (hmem ht) hq
  have hcard : start.length + (U.filter fun s => s ∉ start).card ≤ U.card := by
    have hsplit := Finset.card_filter_add_card_filter_not (s := U) (fun s => s ∈ start)
    have hin : (U.filter fun s => s ∈ start) = start.toFinset := by
      ext a
      rw [Finset.mem_filter, List.mem_toFinset]
      exact and_iff_right_of_imp (hstart a)
    rw [hin, List.toFinset_card_of_nodup hnodup] at hsplit
    exact Nat.le_of_eq hsplit
  have hend := hbegin.search hU U.card hcard
  constructor
  · exact hend.sound s hs
  · rintro ⟨a, ha, hp⟩
    have hmem : s ∈ U ∧ s ∉ search next U.card start (U.filter fun s => s ∉ start) := by
      clear hs
      induction hp with
      | refl => exact ⟨hstart a ha, hend.begun a ha⟩
      | tail _ step ih => exact ⟨hU _ ih.1 _ step, hend.closed _ ih.1 ih.2 List.not_mem_nil _ step⟩
    exact hmem.2

end Search

end Automata
end MediaServer
