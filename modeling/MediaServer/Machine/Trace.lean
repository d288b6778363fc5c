/-
Runs of a machine that answers each input and moves to a next state.

`trace` records, for every input of a run, the state it met and the answer it
got, and `final` is the state after the last one.  What single steps keep becomes
a property of runs through `final_invariant` and `before_invariant`.  A property
of two steps, one before the other, is a `List.Pairwise` over the trace.
-/
import Mathlib.Data.List.Induction

namespace MediaServer
namespace Machine

variable {σ ι ο : Type}

structure Event (σ ι ο : Type) where
  before : σ
  input : ι
  output : ο

def event (step : σ → ι → ο × σ) (s : σ) (i : ι) : Event σ ι ο :=
  { before := s, input := i, output := (step s i).1 }

/-- The steps of a run over `is` from `s`. -/
def trace (step : σ → ι → ο × σ) : σ → List ι → List (Event σ ι ο)
  | _, [] => []
  | s, i :: is => event step s i :: trace step (step s i).2 is

def final (step : σ → ι → ο × σ) (s : σ) (is : List ι) : σ :=
  is.foldl (fun s i => (step s i).2) s

variable {step : σ → ι → ο × σ}

theorem final_append_singleton (s : σ) (is : List ι) (i : ι) :
    final step s (is ++ [i]) = (step (final step s is) i).2 := by
  rw [final, List.foldl_append]
  rfl

theorem map_input_trace (s : σ) (is : List ι) : (trace step s is).map Event.input = is := by
  induction is generalizing s with
  | nil => rfl
  | cons i is ih =>
    rw [trace, List.map_cons, ih]
    rfl

/-- A property of each two inputs, one before the other, is one of the steps. -/
theorem pairwise_input_iff (step : σ → ι → ο × σ) (s : σ) (is : List ι) (R : ι → ι → Prop) :
    is.Pairwise R ↔ (trace step s is).Pairwise fun e e' => R e.input e'.input := by
  rw [← List.pairwise_map (f := Event.input), map_input_trace]

theorem trace_append_singleton (s : σ) (is : List ι) (i : ι) :
    trace step s (is ++ [i]) = trace step s is ++ [event step (final step s is) i] := by
  induction is generalizing s with
  | nil => rfl
  | cons j is ih =>
    rw [List.cons_append, trace, trace, ih]
    rfl

/-- What a step keeps, a run keeps. -/
theorem final_invariant {Inv : σ → Prop} (hstep : ∀ s i, Inv s → Inv (step s i).2)
    {s : σ} (h : Inv s) (is : List ι) : Inv (final step s is) := by
  induction is using List.reverseRecOn with
  | nil => exact h
  | append_singleton is i ih =>
    rw [final_append_singleton]
    exact hstep _ i ih

/-- When `Ok` says of which steps a property survives, a run keeps it after every
prefix exactly when all its steps are of that kind. -/
theorem forall_prefix_iff {Inv : σ → Prop} {Ok : σ → ι → Prop}
    (hstep : ∀ s i, Inv s → (Inv (step s i).2 ↔ Ok s i)) {s : σ} (hs : Inv s) (is : List ι) :
    (∀ done, done <+: is → Inv (final step s done)) ↔
      ∀ e ∈ trace step s is, Ok e.before e.input := by
  induction is generalizing s with
  | nil =>
    refine ⟨fun _ e he => absurd he List.not_mem_nil, fun _ done hdone => ?_⟩
    rw [List.prefix_nil.mp hdone]
    exact hs
  | cons i is ih =>
    rw [trace, List.forall_mem_cons]
    constructor
    · intro h
      have hnext : Inv (step s i).2 := h [i] ⟨is, rfl⟩
      refine ⟨(hstep s i hs).mp hnext, (ih hnext).mp fun done hdone => ?_⟩
      exact h (i :: done) (List.prefix_cons_inj i |>.mpr hdone)
    · intro hcase done hdone
      obtain ⟨hfirst, hrest⟩ := hcase
      have hnext : Inv (step s i).2 := (hstep s i hs).mpr hfirst
      rcases List.prefix_cons_iff.mp hdone with rfl | ⟨rest, rfl, hrest'⟩
      · exact hs
      · exact (ih hnext).mpr hrest rest hrest'

theorem input_mem_of_mem_trace {s : σ} {is : List ι} {e : Event σ ι ο}
    (h : e ∈ trace step s is) : e.input ∈ is := by
  induction is generalizing s with
  | nil => exact absurd h List.not_mem_nil
  | cons i is ih =>
    rcases List.mem_cons.mp h with rfl | h
    · exact List.mem_cons_self
    · exact List.mem_cons_of_mem i (ih h)

theorem output_of_mem_trace {s : σ} {is : List ι} {e : Event σ ι ο}
    (h : e ∈ trace step s is) : e.output = (step e.before e.input).1 := by
  induction is generalizing s with
  | nil => exact absurd h List.not_mem_nil
  | cons i is ih =>
    rcases List.mem_cons.mp h with rfl | h
    · rfl
    · exact ih h

/-- An invariant holds in every state that a run meets. -/
theorem before_invariant {Inv : σ → Prop} (hstep : ∀ s i, Inv s → Inv (step s i).2)
    {s : σ} (hs : Inv s) {is : List ι} {e : Event σ ι ο} (h : e ∈ trace step s is) :
    Inv e.before := by
  induction is generalizing s with
  | nil => exact absurd h List.not_mem_nil
  | cons i is ih =>
    rcases List.mem_cons.mp h with rfl | h
    · exact hs
    · exact ih (hstep s i hs) h

theorem exists_mem_trace (step : σ → ι → ο × σ) (s : σ) {is : List ι} {i : ι} (h : i ∈ is) :
    ∃ e ∈ trace step s is, e.input = i := by
  induction is generalizing s with
  | nil => exact absurd h List.not_mem_nil
  | cons j is ih =>
    rcases List.mem_cons.mp h with rfl | h
    · exact ⟨_, List.mem_cons_self, rfl⟩
    · obtain ⟨e, he, hi⟩ := ih (step s j).2 h
      exact ⟨e, List.mem_cons_of_mem _ he, hi⟩

end Machine
end MediaServer
