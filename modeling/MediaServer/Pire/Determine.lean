/-
`Determine`: the states that a task reaches, found in breadth and numbered.

`determine_outcome` and `explored_of_determine` say what comes out of it.  It
gives up exactly when there are too many states to reach; when it does not, it
has numbered each state that can be reached once, the first one by zero, and
connected every state that is required with the next ones.
-/
import MediaServer.Pire.Fsm

namespace MediaServer
namespace Pire

/-- A determination task. -/
structure Task (S : Type) where
  letters : LettersTbl
  initial : S
  next : S → Letter → S
  isRequired : S → Bool

/-- The states found, their connections, and how many states may still be
found.  A row of transitions and the letters of its places are kept together
here, as connections. -/
structure Found (S : Type) where
  states : List S
  connections : List (Nat × Letter × Nat)
  room : Nat

namespace Task

variable {S : Type}

/-- The letters that stand for their classes. -/
def keys (task : Task S) : List Letter := task.letters.set.map Klass.key

section Operations

variable [DecidableEq S]

/-- The number of a state.  A new one is given the next number, unless there is
no room for it. -/
def enlist (found : Found S) (q : S) : Option (Found S × Nat) :=
  if q ∈ found.states then some (found, found.states.idxOf q)
  else if found.room = 0 then none
  else some ({ found with states := found.states ++ [q], room := found.room - 1 },
    found.states.length)

def connectLetter (task : Task S) (i : Nat) (q : S) (found : Found S) (k : Letter) :
    Option (Found S) :=
  (enlist found (task.next q k)).map fun r =>
    { r.1 with connections := r.1.connections ++ [(i, k, r.2)] }

def visit (task : Task S) (found : Found S) (i : Nat) : Option (Found S) :=
  match found.states[i]? with
  | none => some found
  | some q => if task.isRequired q then task.keys.foldlM (task.connectLetter i q) found
    else some found

/-- There are never more than `maxSize + 1` states, so the loop over them is one
over the numbers below that. -/
def determine (task : Task S) (maxSize : Nat) : Option (Found S) :=
  (List.range (maxSize + 1)).foldlM task.visit ⟨[task.initial], [], maxSize⟩

end Operations

/-- The states that the task leads to. -/
inductive Reached (task : Task S) : S → Prop
  | initial : Reached task task.initial
  | next {q : S} {k : Letter} : Reached task q → task.isRequired q = true → k ∈ task.keys →
      Reached task (task.next q k)

/-! ## The loop -/

/-- The state of the loop.  `done` are the states, by number, and the letters
that it has come to. -/
structure Explored (task : Task S) (total : Nat) (done : Nat → Letter → Prop)
    (found : Found S) : Prop where
  first : found.states[0]? = some task.initial
  nodup : found.states.Nodup
  room : found.states.length + found.room = total
  reached : ∀ q ∈ found.states, task.Reached q
  done_lt : ∀ i k, k ∈ task.keys → done i k → i < found.states.length
  connections : ∀ i k j, (i, k, j) ∈ found.connections ↔ done i k ∧ k ∈ task.keys ∧
    ∃ q, found.states[i]? = some q ∧ task.isRequired q = true ∧
      found.states[j]? = some (task.next q k)
  /-- What has been come to has been numbered. -/
  closed : ∀ i k q, done i k → k ∈ task.keys → found.states[i]? = some q →
    task.isRequired q = true → task.next q k ∈ found.states

/-- More states than there is room for. -/
def Overfull (task : Task S) (total : Nat) : Prop :=
  ∃ l : List S, l.Nodup ∧ l.length = total + 1 ∧ ∀ q ∈ l, task.Reached q

/-- What a computation ends in: a value with `P`, or a failure for the reason
that is given. -/
def Outcome {A : Type} (failure : Prop) (P : A → Prop) : Option A → Prop
  | some a => P a
  | none => failure

theorem Outcome.imp {A : Type} {failure : Prop} {P Q : A → Prop} {o : Option A}
    (h : Outcome failure P o) (hPQ : ∀ a, P a → Q a) : Outcome failure Q o := by
  cases o with
  | none => exact h
  | some a => exact hPQ a h

theorem Outcome.bind {A B : Type} {failure : Prop} {P : A → Prop} {Q : B → Prop} {o : Option A}
    {f : A → Option B} (h : Outcome failure P o) (hf : ∀ a, P a → Outcome failure Q (f a)) :
    Outcome failure Q (o.bind f) := by
  cases o with
  | none => exact h
  | some a => exact hf a h

section Loop

variable {task : Task S} {total : Nat} {done : Nat → Letter → Prop} {found : Found S}

theorem Explored.congr (h : Explored task total done found) {done' : Nat → Letter → Prop}
    (hdone : ∀ i k, k ∈ task.keys → (done i k ↔ done' i k)) :
    Explored task total done' found where
  first := h.first
  nodup := h.nodup
  room := h.room
  reached := h.reached
  done_lt i k hk hd := h.done_lt i k hk ((hdone i k hk).mpr hd)
  connections i k j := by
    rw [h.connections]
    constructor
    · rintro ⟨hd, hk, hrest⟩
      exact ⟨(hdone i k hk).mp hd, hk, hrest⟩
    · rintro ⟨hd, hk, hrest⟩
      exact ⟨(hdone i k hk).mpr hd, hk, hrest⟩
  closed i k q hd hk := h.closed i k q ((hdone i k hk).mpr hd) hk

/-- A state that need not go on counts as come to. -/
theorem Explored.skip (h : Explored task total done found) {i : Nat}
    (hi : ∀ q, found.states[i]? = some q → task.isRequired q = false)
    (hlt : i < found.states.length) :
    Explored task total (fun i' k' => done i' k' ∨ i' = i) found where
  first := h.first
  nodup := h.nodup
  room := h.room
  reached := h.reached
  done_lt i' k' hk := by
    rintro (hd | rfl)
    · exact h.done_lt i' k' hk hd
    · exact hlt
  connections i' k' j := by
    rw [h.connections]
    constructor
    · rintro ⟨hd, hrest⟩
      exact ⟨Or.inl hd, hrest⟩
    · rintro ⟨hd | rfl, hk, q, hq, hr, hj⟩
      · exact ⟨hd, hk, q, hq, hr, hj⟩
      · exact absurd hr (by rw [hi q hq]; exact Bool.false_ne_true)
  closed i' k' q hd hk hq hr := by
    rcases hd with hd | rfl
    · exact h.closed i' k' q hd hk hq hr
    · exact absurd hr (by rw [hi q hq]; exact Bool.false_ne_true)

theorem explored_start (task : Task S) (maxSize : Nat) :
    Explored task (maxSize + 1) (fun _ _ => False) ⟨[task.initial], [], maxSize⟩ where
  first := rfl
  nodup := List.nodup_singleton _
  room := Nat.add_comm 1 maxSize
  reached q hq := by
    rw [List.mem_singleton.mp hq]
    exact Reached.initial
  done_lt _ _ _ hd := hd.elim
  connections i k j := iff_of_false List.not_mem_nil fun hd => hd.1
  closed _ _ _ hd := hd.elim

variable [DecidableEq S]

/-- A number is given to `q`, and nothing that was known is lost. -/
theorem Explored.enlist (h : Explored task total done found) {q : S} (hq : task.Reached q) :
    Outcome (task.Overfull total) (fun r => Explored task total done r.1 ∧
      r.1.states[r.2]? = some q ∧
      ∀ (i : Nat) (p : S), found.states[i]? = some p → r.1.states[i]? = some p)
      (Task.enlist found q) := by
  unfold Task.enlist
  by_cases hmem : q ∈ found.states
  · rw [if_pos hmem]
    have hlt : found.states.idxOf q < found.states.length := List.idxOf_lt_length_of_mem hmem
    refine ⟨h, ?_, fun i p hp => hp⟩
    rw [List.getElem?_eq_getElem hlt, List.getElem_idxOf hlt]
  · rw [if_neg hmem]
    have hnodup : (found.states ++ [q]).Nodup :=
      List.nodup_append.mpr ⟨h.nodup, List.nodup_singleton q, fun a ha b hb hab => by
        rw [List.mem_singleton] at hb
        subst hb hab
        exact hmem ha⟩
    have hall : ∀ p ∈ found.states ++ [q], task.Reached p := by
      intro p hp
      rcases List.mem_append.mp hp with hp | hp
      · exact h.reached p hp
      · rw [List.mem_singleton.mp hp]
        exact hq
    by_cases hroom : found.room = 0
    · rw [if_pos hroom]
      refine ⟨found.states ++ [q], hnodup, ?_, hall⟩
      rw [List.length_append, List.length_singleton, ← h.room, hroom]
    · rw [if_neg hroom]
      have hkeep : ∀ (i : Nat) (p : S), found.states[i]? = some p →
          (found.states ++ [q])[i]? = some p := by
        intro i p hp
        rw [List.getElem?_append_left (List.getElem?_eq_some_iff.mp hp).1]
        exact hp
      have hback : ∀ (i : Nat) (p : S), i < found.states.length →
          (found.states ++ [q])[i]? = some p →
          found.states[i]? = some p := by
        intro i p hi hp
        rwa [List.getElem?_append_left hi] at hp
      refine ⟨⟨hkeep 0 _ h.first, hnodup, ?_, hall, ?_, ?_, ?_⟩, ?_, hkeep⟩
      · show (found.states ++ [q]).length + (found.room - 1) = total
        have hr := h.room
        rw [List.length_append, List.length_singleton]
        omega
      · intro i k hk hd
        show i < (found.states ++ [q]).length
        rw [List.length_append]
        exact Nat.lt_of_lt_of_le (h.done_lt i k hk hd) (Nat.le_add_right _ _)
      · intro i k j
        show (i, k, j) ∈ found.connections ↔ done i k ∧ k ∈ task.keys ∧
          ∃ p, (found.states ++ [q])[i]? = some p ∧ task.isRequired p = true ∧
            (found.states ++ [q])[j]? = some (task.next p k)
        rw [h.connections]
        constructor
        · rintro ⟨hd, hk, p, hp, hr, hj⟩
          exact ⟨hd, hk, p, hkeep i p hp, hr, hkeep j _ hj⟩
        · rintro ⟨hd, hk, p, hp, hr, hj⟩
          have hp' := hback i p (h.done_lt i k hk hd) hp
          -- the next state has its old number, as numbers are not given twice
          obtain ⟨j', hj'⟩ := List.getElem?_of_mem (h.closed i k p hd hk hp' hr)
          have hjj : j' = j := by
            have hlt := (List.getElem?_eq_some_iff.mp (hkeep j' _ hj')).1
            exact (List.getElem?_inj hlt hnodup).mp ((hkeep j' _ hj').trans hj.symm)
          rw [← hjj]
          exact ⟨hd, hk, p, hp', hr, hj'⟩
      · intro i k p hd hk hp hr
        exact List.mem_append_left [q]
          (h.closed i k p hd hk (hback i p (h.done_lt i k hk hd) hp) hr)
      · exact List.getElem?_concat_length

/-- One letter of a state. -/
theorem Explored.connectLetter (h : Explored task total done found) {i : Nat} {q : S} {k : Letter}
    (hi : found.states[i]? = some q) (hr : task.isRequired q = true) (hk : k ∈ task.keys) :
    Outcome (task.Overfull total) (fun found' =>
      Explored task total (fun i' k' => done i' k' ∨ (i' = i ∧ k' = k)) found' ∧
        found'.states[i]? = some q) (task.connectLetter i q found k) := by
  have hq : task.Reached q := h.reached q (List.mem_of_getElem? hi)
  unfold Task.connectLetter
  rw [Option.map_eq_bind]
  refine (h.enlist (hq.next hr hk)).bind ?_
  rintro ⟨found', j⟩ ⟨h', hj, hkeep⟩
  have hi' := hkeep i q hi
  refine ⟨⟨h'.first, h'.nodup, h'.room, h'.reached, ?_, ?_, ?_⟩, hi'⟩
  · rintro i' k' hk' (hd | ⟨rfl, -⟩)
    · exact h'.done_lt i' k' hk' hd
    · exact (List.getElem?_eq_some_iff.mp hi').1
  · intro i' k' j'
    show (i', k', j') ∈ found'.connections ++ [(i, k, j)] ↔ (done i' k' ∨ (i' = i ∧ k' = k)) ∧
      k' ∈ task.keys ∧ ∃ p, found'.states[i']? = some p ∧ task.isRequired p = true ∧
        found'.states[j']? = some (task.next p k')
    rw [List.mem_append, List.mem_singleton, h'.connections, Prod.mk.injEq, Prod.mk.injEq]
    constructor
    · rintro (⟨hd, hrest⟩ | ⟨rfl, rfl, rfl⟩)
      · exact ⟨Or.inl hd, hrest⟩
      · exact ⟨Or.inr ⟨rfl, rfl⟩, hk, q, hi', hr, hj⟩
    · rintro ⟨hd | ⟨rfl, rfl⟩, hk', p, hp, hpr, hj'⟩
      · exact Or.inl ⟨hd, hk', p, hp, hpr, hj'⟩
      · obtain rfl : p = q := Option.some.inj (hp.symm.trans hi')
        have hlt := (List.getElem?_eq_some_iff.mp hj').1
        exact Or.inr ⟨rfl, rfl, (List.getElem?_inj hlt h'.nodup).mp (hj'.trans hj.symm)⟩
  · rintro i' k' p (hd | ⟨rfl, rfl⟩) hk' hp hpr
    · exact h'.closed i' k' p hd hk' hp hpr
    · obtain rfl : p = q := Option.some.inj (hp.symm.trans hi')
      exact List.mem_of_getElem? hj

/-- The letters of a state, one after the other. -/
theorem Explored.connectLetters (ks : List Letter) (h : Explored task total done found) {i : Nat}
    {q : S} (hi : found.states[i]? = some q) (hr : task.isRequired q = true)
    (hk : ∀ k ∈ ks, k ∈ task.keys) :
    Outcome (task.Overfull total)
      (fun found' => Explored task total (fun i' k' => done i' k' ∨ (i' = i ∧ k' ∈ ks)) found' ∧
        found'.states[i]? = some q)
      (ks.foldlM (task.connectLetter i q) found) := by
  induction ks generalizing found done with
  | nil => exact ⟨h.congr fun i' k' _ => by simp, hi⟩
  | cons k ks ih =>
    rw [List.foldlM_cons]
    refine (h.connectLetter hi hr (hk k List.mem_cons_self)).bind ?_
    rintro found' ⟨h', hi'⟩
    refine (ih h' hi' fun k' hk' => hk k' (List.mem_cons_of_mem k hk')).imp ?_
    rintro found'' ⟨h'', hi''⟩
    refine ⟨h''.congr fun i' k' _ => ?_, hi''⟩
    rw [List.mem_cons]
    tauto

theorem Explored.visit {n : Nat} (h : Explored task total (fun i _ => i < n) found)
    (hn : n < found.states.length) :
    Outcome (task.Overfull total) (fun found' =>
      Explored task total (fun i _ => i < n + 1) found' ∧ n < found'.states.length)
      (task.visit found n) := by
  have hq : found.states[n]? = some found.states[n] := List.getElem?_eq_getElem hn
  unfold Task.visit
  rw [hq]
  show Outcome _ _ (if task.isRequired found.states[n] then _ else _)
  by_cases hr : task.isRequired found.states[n] = true
  · rw [if_pos hr]
    refine (h.connectLetters task.keys hq hr fun k hk => hk).imp ?_
    rintro found' ⟨h', hn'⟩
    refine ⟨h'.congr fun i k hk => ?_, (List.getElem?_eq_some_iff.mp hn').1⟩
    simp only [hk, and_true]
    omega
  · rw [if_neg hr]
    have hskip := h.skip (i := n) (fun q hq' => by
      rw [← Option.some.inj (hq.symm.trans hq')]
      exact Bool.eq_false_iff.mpr hr) hn
    exact ⟨hskip.congr fun i k _ => by omega, hn⟩

/-- What the loop has found after `n` rounds: all the states have been come to
if there were enough of them. -/
theorem Explored.visits (h : Explored task total (fun _ _ => False) found) (n : Nat) :
    Outcome (task.Overfull total) (fun found' =>
      Explored task total (fun i _ => i < min n found'.states.length) found')
      ((List.range n).foldlM task.visit found) := by
  induction n with
  | zero =>
    refine h.congr fun i _ _ => ?_
    rw [Nat.zero_min]
    exact iff_of_false id (Nat.not_lt_zero i)
  | succ n ih =>
    rw [List.range_succ, List.foldlM_append]
    refine ih.bind fun found' h' => ?_
    have hone : [n].foldlM task.visit found' = task.visit found' n := by
      rw [List.foldlM_cons]
      exact Option.bind_fun_some _
    rw [hone]
    by_cases hlt : n < found'.states.length
    · rw [Nat.min_eq_left (Nat.le_of_lt hlt)] at h'
      refine (h'.visit hlt).imp ?_
      rintro found'' ⟨h'', hn⟩
      rwa [Nat.min_eq_left hn]
    · unfold Task.visit
      rw [List.getElem?_eq_none (Nat.le_of_not_lt hlt)]
      exact h'.congr fun i _ _ => by omega

/-- When the loop is over, every state has been come to. -/
theorem determine_outcome (task : Task S) (maxSize : Nat) :
    Outcome (task.Overfull (maxSize + 1)) (fun found =>
      Explored task (maxSize + 1) (fun i _ => i < found.states.length) found)
      (task.determine maxSize) := by
  refine ((explored_start task maxSize).visits (maxSize + 1)).imp fun found h => ?_
  have hroom := h.room
  exact h.congr fun i _ _ => by omega

end Loop

/-! ## What is found -/

section Results

variable [DecidableEq S] {task : Task S} {maxSize : Nat} {found : Found S}

theorem explored_of_determine (h : task.determine maxSize = some found) :
    Explored task (maxSize + 1) (fun i _ => i < found.states.length) found := by
  have ho := determine_outcome task maxSize
  rw [h] at ho
  exact ho

/-- The states that are numbered are those that can be reached. -/
theorem mem_states_iff (h : task.determine maxSize = some found) {q : S} :
    q ∈ found.states ↔ task.Reached q := by
  have he := explored_of_determine h
  constructor
  · exact he.reached q
  · intro hq
    induction hq with
    | initial => exact List.mem_of_getElem? he.first
    | @next q k _ hr hk ih =>
      obtain ⟨i, hi⟩ := List.getElem?_of_mem ih
      exact he.closed i k q (List.getElem?_eq_some_iff.mp hi).1 hk hi hr

theorem mem_connections_iff (h : task.determine maxSize = some found) {i j : Nat} {k : Letter} :
    (i, k, j) ∈ found.connections ↔ k ∈ task.keys ∧ ∃ q, found.states[i]? = some q ∧
      task.isRequired q = true ∧ found.states[j]? = some (task.next q k) := by
  rw [(explored_of_determine h).connections]
  constructor
  · rintro ⟨-, hrest⟩
    exact hrest
  · rintro ⟨hk, q, hq, hrest⟩
    exact ⟨(List.getElem?_eq_some_iff.mp hq).1, hk, q, hq, hrest⟩

/-- The search gives up exactly when more states can be reached than there is
room for. -/
theorem determine_eq_none_iff : task.determine maxSize = none ↔ task.Overfull (maxSize + 1) := by
  have ho := determine_outcome task maxSize
  constructor
  · intro h
    rw [h] at ho
    exact ho
  · rintro ⟨l, hnodup, hlength, hreached⟩
    cases h : task.determine maxSize with
    | none => rfl
    | some found =>
      have he := explored_of_determine h
      have hsub : l ⊆ found.states := fun q hq => (mem_states_iff h).mpr (hreached q hq)
      have hle := (List.subperm_of_subset hnodup hsub).length_le
      have hroom := he.room
      omega

end Results

end Task

end Pire
end MediaServer
