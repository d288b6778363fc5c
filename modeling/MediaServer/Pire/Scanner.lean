/-
Scanners: the tables that texts are run through.

A scanner has one row of transitions for each state and one column for each
class of letters, and a shortcut for each state that few bytes lead out of.
`Follows` says what a scanner that was built knows of its automaton: it steps and
accepts as the automaton does, and a shortcut names every byte that leads out.
-/
import MediaServer.Pire.Complement
import MediaServer.Pire.DeadEnds

namespace MediaServer
namespace Pire

/-- What the two exit masks of a state say: nothing, that no byte leads out of
it, or which bytes do, the second one again the first if there is only one. -/
inductive Shortcut
  | noShortcut
  | noExit
  | masks (first last : UInt8)
  deriving DecidableEq

/-- States and classes of letters by their numbers, where the code has addresses
and columns. -/
structure Scanner where
  statesCount : Nat
  lettersCount : Nat
  initial : Nat
  letters : Letter → Nat
  transitions : Nat → Nat → Nat
  finals : Nat → Bool
  deads : Nat → Bool
  shortcuts : Nat → Shortcut

namespace Scanner

def next (sc : Scanner) (s : Nat) (c : Letter) : Nat := sc.transitions s (sc.letters c)

/-! ## Building -/

/-- The letter translation table of `Init`. -/
def lettersTable (p : LettersTbl) : Letter → Nat :=
  (p.set.flatMap fun k => k.items.map fun c => (c, k.idx)).foldl
    (fun table e => Function.update table e.1 e.2) fun _ => 0

/-- The row that `BuildScanner` makes with `SetJump`. -/
def jumpRow (m : Fsm) (s : Nat) : Nat → Nat :=
  (m.keys.flatMap fun k => (m.destinations s k).sort.map fun t =>
    (lettersTable m.letters k, t)).foldl (fun row e => Function.update row e.1 e.2) fun _ => 0

def bytes : List UInt8 := (List.range 256).map UInt8.ofNat

/-- The bytes of a class of letters. -/
def chars (sc : Scanner) (klass : Nat) : List UInt8 :=
  bytes.filter fun b => sc.letters (byte b).1 = klass

/-- The bytes that lead out of `s` by one of the classes, nothing if they are
more than there are masks for. -/
def exits (sc : Scanner) (s : Nat) : List Nat → List UInt8 → Option (List UInt8)
  | [], found => some found
  | klass :: klasses, found =>
    if sc.transitions s klass = s then exits sc s klasses found
    else if 2 < found.length + (sc.chars klass).length then none
    else exits sc s klasses (found ++ sc.chars klass)

/-- `BuildShortcuts` for one state -/
def shortcut (sc : Scanner) (s : Nat) : Shortcut :=
  match sc.exits s (List.range sc.lettersCount) [] with
  | none => .noShortcut
  | some [] => .noExit
  | some (b :: bs) => .masks b (bs.headD b)

def buildScanner (m : Fsm) : Scanner :=
  let sc : Scanner :=
    { statesCount := m.size
      lettersCount := m.letters.size
      initial := m.initial
      letters := lettersTable m.letters
      transitions := jumpRow m
      finals := fun s => s ∈ m.final
      deads := fun s => s ∈ m.deadStates
      shortcuts := fun _ => .noShortcut }
  { sc with shortcuts := sc.shortcut }

/-- `Fsm::Compile`: nothing where `Canonize` throws. -/
def compile [StdPartition Nat] (m : Fsm) : Option Scanner := (m.canonize 0).map buildScanner

/-! ## What a scanner knows -/

/-- A shortcut names every byte that leads out of the state. -/
def Shortcut.Names (sc : Scanner) (s : Nat) : Shortcut → Prop
  | .noShortcut => True
  | .noExit => ∀ b, sc.next s (byte b).1 = s
  | .masks first last => ∀ b, b ≠ first → b ≠ last → sc.next s (byte b).1 = s

/-- The scanner follows the automaton. -/
structure Follows (sc : Scanner) (m : Fsm) : Prop where
  initial : sc.initial = m.initial
  next : ∀ s < m.size, ∀ c, c ≠ epsilon → sc.next s c = m.detTran s (m.klass c)
  final : ∀ s, sc.finals s = true ↔ s ∈ m.final
  dead : ∀ s, sc.deads s = true ↔ s ∈ m.deadStates
  shortcut : ∀ s < m.size, Shortcut.Names sc s (sc.shortcuts s)

section Tables

variable {α : Type} [DecidableEq α]

theorem foldl_update_of_notMem {β : Type} (l : List (α × β)) (f : α → β) {i : α}
    (h : ∀ e ∈ l, e.1 ≠ i) : l.foldl (fun f e => Function.update f e.1 e.2) f i = f i := by
  induction l generalizing f with
  | nil => rfl
  | cons e l ih =>
    rw [List.foldl_cons, ih _ fun d hd => h d (List.mem_cons_of_mem e hd)]
    exact Function.update_of_ne (h e List.mem_cons_self).symm _ _

/-- An entry that is written once or more, always the same. -/
theorem foldl_update_of_mem {β : Type} (l : List (α × β)) (f : α → β) {i : α} {v : β}
    (hall : ∀ e ∈ l, e.1 = i → e.2 = v) (hmem : ∃ e ∈ l, e.1 = i) :
    l.foldl (fun f e => Function.update f e.1 e.2) f i = v := by
  induction l generalizing f with
  | nil =>
    obtain ⟨e, he, -⟩ := hmem
    exact absurd he List.not_mem_nil
  | cons e l ih =>
    have hall' : ∀ d ∈ l, d.1 = i → d.2 = v := fun d hd => hall d (List.mem_cons_of_mem e hd)
    rw [List.foldl_cons]
    by_cases hl : ∃ d ∈ l, d.1 = i
    · exact ih _ hall' hl
    · obtain ⟨d, hd, hdi⟩ := hmem
      rcases List.mem_cons.mp hd with rfl | hd
      · rw [foldl_update_of_notMem l _ fun d' hd' hi => hl ⟨d', hd', hi⟩, ← hdi,
          Function.update_self]
        exact hall d List.mem_cons_self hdi
      · exact absurd ⟨d, hd, hdi⟩ hl

end Tables

/-- A letter is translated to the index of its class. -/
theorem lettersTable_eq {eq : Letter → Letter → Bool} {p : LettersTbl}
    (h : Partition.Sound eq (fun c => c ≠ epsilon) [] p) {k : Klass Letter} (hk : k ∈ p.set)
    {c : Letter} (hc : c ∈ k.items) : lettersTable p c = k.idx := by
  refine foldl_update_of_mem _ _ ?_ ⟨(c, k.idx), ?_, rfl⟩
  · rintro ⟨d, i⟩ he hd
    obtain ⟨j, hj, he⟩ := List.mem_flatMap.mp he
    obtain ⟨d', hd', he⟩ := List.mem_map.mp he
    obtain ⟨rfl, rfl⟩ := Prod.mk.inj he
    have hdc : d' = c := hd
    rw [hdc] at hd'
    have hkey : some j.key = some k.key := by rw [← h.inv j hj c hd', h.inv k hk c hc]
    rw [h.eq_of_key hj hk (Option.some.inj hkey)]
  · exact List.mem_flatMap.mpr ⟨k, hk, List.mem_map.mpr ⟨c, hc, rfl⟩⟩

theorem mem_bytes (b : UInt8) : b ∈ bytes :=
  List.mem_map.mpr ⟨b.toNat, List.mem_range.mpr b.toNat_lt, UInt8.ofNat_toNat⟩

/-- All the bytes that lead out by the classes are found, or too many. -/
theorem exits_spec (sc : Scanner) (s : Nat) (klasses : List Nat) (found out : List UInt8)
    (h : sc.exits s klasses found = some out) :
    (∀ b ∈ found, b ∈ out) ∧ (∀ klass ∈ klasses, sc.transitions s klass ≠ s →
      ∀ b ∈ sc.chars klass, b ∈ out) ∧ (found.length ≤ 2 → out.length ≤ 2) := by
  induction klasses generalizing found with
  | nil =>
    obtain rfl := Option.some.inj h
    exact ⟨fun _ hb => hb, fun _ hk => absurd hk List.not_mem_nil, id⟩
  | cons klass klasses ih =>
    unfold exits at h
    split at h
    · rename_i hstay
      obtain ⟨h1, h2, h3⟩ := ih found h
      refine ⟨h1, fun k hk hne => ?_, h3⟩
      rcases List.mem_cons.mp hk with rfl | hk
      · exact absurd hstay hne
      · exact h2 k hk hne
    · split at h
      · exact absurd h.symm (Option.some_ne_none out)
      · rename_i hroom
        obtain ⟨h1, h2, h3⟩ := ih _ h
        refine ⟨fun b hb => h1 b (List.mem_append_left _ hb), fun k hk hne => ?_, fun _ => ?_⟩
        · rcases List.mem_cons.mp hk with rfl | hk
          · exact fun b hb => h1 b (List.mem_append_right _ hb)
          · exact h2 k hk hne
        · refine h3 ?_
          rw [List.length_append]
          omega

/-- The shortcut that is built for a state names the bytes that lead out. -/
theorem names_shortcut (sc : Scanner) (s : Nat)
    (hletters : ∀ b, sc.letters (byte b).1 < sc.lettersCount) :
    Shortcut.Names sc s (sc.shortcut s) := by
  have hstay : ∀ out, sc.exits s (List.range sc.lettersCount) [] = some out → ∀ b, b ∉ out →
      sc.next s (byte b).1 = s := by
    intro out hout b hb
    obtain ⟨-, h2, -⟩ := exits_spec sc s _ _ _ hout
    by_contra hne
    exact hb (h2 _ (List.mem_range.mpr (hletters b)) hne b
      (List.mem_filter.mpr ⟨mem_bytes b, decide_eq_true rfl⟩))
  unfold shortcut
  cases hout : sc.exits s (List.range sc.lettersCount) [] with
  | none => exact trivial
  | some out =>
    obtain ⟨-, -, hlen⟩ := exits_spec sc s _ _ _ hout
    have hlen' := hlen (Nat.zero_le 2)
    match out, hout, hlen' with
    | [], hout, _ => exact fun b => hstay [] hout b List.not_mem_nil
    | [a], hout, _ =>
      intro b ha _
      exact hstay [a] hout b (by rw [List.mem_singleton]; exact ha)
    | [a, a'], hout, _ =>
      intro b ha ha'
      refine hstay [a, a'] hout b ?_
      rw [List.mem_cons, List.mem_singleton, not_or]
      exact ⟨ha, ha'⟩
    | _ :: _ :: _ :: _, _, hlen' =>
      simp only [List.length_cons] at hlen'
      omega

theorem follows_buildScanner {m : Fsm} (hdet : m.Deterministic) :
    Follows (buildScanner m) m := by
  obtain ⟨eq, hsound⟩ := hdet.letters
  refine ⟨rfl, ?_, fun s => decide_eq_true_iff, fun s => decide_eq_true_iff, ?_⟩
  · intro s hs c hc
    obtain ⟨k, hk, hck, hi⟩ := hsound.exists_klass hc
    have hklass : m.klass c = k.key := by
      unfold Fsm.klass
      rw [hi, Option.getD_some]
    show jumpRow m s (lettersTable m.letters c) = _
    rw [lettersTable_eq hsound hk hck, hklass]
    have hkey : k.key ∈ m.keys := Fsm.mem_keys.mpr ⟨k, hk, rfl⟩
    have hdest : ∀ j ∈ m.keys, (m.destinations s j).sort = [m.detTran s j] := by
      intro j hj
      rw [Fsm.destinations_of_mem_keys hsound s hj, Fsm.targets_eq_entry,
        Fsm.klass_of_mem_keys hsound hj]
      unfold Fsm.entry
      rw [(hdet.row_of_mem_keys hs hj).1, Option.getD_some, Finset.sort_singleton]
    refine foldl_update_of_mem _ _ ?_ ⟨(lettersTable m.letters k.key, m.detTran s k.key), ?_, ?_⟩
    · rintro ⟨i, t⟩ he hik
      obtain ⟨j, hj, he⟩ := List.mem_flatMap.mp he
      rw [hdest j hj, List.map_singleton, List.mem_singleton] at he
      obtain ⟨rfl, rfl⟩ := Prod.mk.inj he
      obtain ⟨K, hK, rfl⟩ := Fsm.mem_keys.mp hj
      have hidx : lettersTable m.letters K.key = k.idx := hik
      rw [lettersTable_eq hsound hK (hsound.key_mem hK)] at hidx
      rw [hsound.idx_inj hK hk hidx]
    · refine List.mem_flatMap.mpr ⟨k.key, hkey, ?_⟩
      rw [hdest k.key hkey]
      exact List.mem_singleton_self _
    · exact lettersTable_eq hsound hk (hsound.key_mem hk)
  · intro s _
    refine names_shortcut _ s fun b => ?_
    obtain ⟨k, hk, hbk, -⟩ := hsound.exists_klass (byte b).2
    show lettersTable m.letters (byte b).1 < m.letters.size
    rw [lettersTable_eq hsound hk hbk]
    exact hsound.idx_lt hk

end Scanner

end Pire
end MediaServer
