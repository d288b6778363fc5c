/-
`CompileRegexp` and `Matches`: from a pattern to whether a text matches it.

`matchesText_of_reads` follows a pattern through everything: a text matches exactly
when some part of it, between the marks for its ends, is accepted by what the pattern
is read as.  The part may take in the marks, which is what `^` and `$` stand for.  For
a solid pattern, what is accepted are its words (`existsUnique_reads`).
-/
import MediaServer.Pire.Lexer
import MediaServer.Pire.Parser
import MediaServer.Pire.Runner

namespace MediaServer
namespace Pire

open Automata Computability

/-- `CompileRegexp`: nothing where an exception is thrown. -/
def compileRegexp [StdPartition Nat] (u : Unicode) (pattern : List UInt8) : Option Scanner := do
  let ucs4 ← Utf8.fromLocal pattern
  let terms ← Lexer.lex u ucs4
  let tree ← yreParse terms
  let m ← tree.fsm
  Scanner.compile m.surround

/-! ## Texts -/

/-- A text with the marks for its ends, as a runner feeds it. -/
def textWord (text : List UInt8) : List Input := beginInput :: (text.map byte ++ [endInput])

namespace Scanner

variable {sc : Scanner} {d m : Fsm}

/-- The state that a word leads to. -/
def runWord (sc : Scanner) (x : List Input) : Nat :=
  x.foldl (fun s c => sc.next s c.1) sc.initial

/-- A scanner runs as the automaton that it follows. -/
theorem foldl_next_eq_run (hdet : d.Deterministic) (h : Follows sc d) {s : Nat} (hs : s < d.size)
    (x : List Input) : x.foldl (fun s c => sc.next s c.1) s = d.run s x := by
  induction x generalizing s with
  | nil => rfl
  | cons c x ih =>
    show List.foldl _ (sc.next s c.1) x = d.run (d.detTran s (d.klass c.1)) x
    rw [h.next s hs _ c.2]
    exact ih (hdet.targets_eq hs c.2).2

theorem feed_eq_run (hdet : d.Deterministic) (h : Follows sc d) {s : Nat} (hs : s < d.size)
    (text : List UInt8) : sc.feed s text = d.run s (text.map byte) := by
  rw [← foldl_next_eq_run hdet h hs, List.foldl_map]
  rfl

theorem runWord_eq_run (hdet : d.Deterministic) (h : Follows sc d) (x : List Input) :
    sc.runWord x = d.run 0 x := by
  unfold runWord
  rw [h.initial, hdet.initial]
  exact foldl_next_eq_run hdet h hdet.size_pos x

theorem path_run (hdet : d.Deterministic) {s : Nat} (hs : s < d.size) (x : List Input) :
    Path d.nfa s x (d.run s x) := by
  induction x generalizing s with
  | nil => exact Path.nil s
  | cons c x ih =>
    have hstep : d.detTran s (d.klass c.1) ∈ d.nfa.step s (some c) := by
      rw [hdet.step_eq hs c]
      exact Set.mem_singleton _
    exact Path.cons (some c) hstep (ih (hdet.targets_eq hs c.2).2)

theorem runText_eq_run (hdet : d.Deterministic) (h : Follows sc d) (mem : Memory) (p n : Nat) :
    sc.runText mem p n = d.run 0 (textWord (textAt mem p n)) := by
  have hclosed : ∀ s < d.size, ∀ b, sc.next s (byte b).1 < d.size := by
    intro s hs b
    rw [h.next s hs _ (byte b).2]
    exact (hdet.targets_eq hs (byte b).2).2
  have hbegin : sc.next sc.initial beginMark = d.run 0 [beginInput] := by
    rw [h.initial, hdet.initial]
    exact h.next 0 hdet.size_pos _ beginInput.2
  have hlt : d.run 0 [beginInput] < d.size := hdet.run_lt hdet.size_pos _
  have hrun := doRun_eq hclosed h.shortcut mem (q := p + n) hlt (Nat.le_add_right p n)
  unfold runText
  rw [hbegin, hrun, Nat.add_sub_cancel_left, feed_eq_run hdet h hlt]
  have hmid := hdet.run_lt hlt ((textAt mem p n).map byte)
  show sc.next _ endInput.1 = _
  rw [h.next _ hmid _ endInput.2]
  show _ = (beginInput :: (List.map byte _ ++ [endInput])).foldl _ 0
  rw [List.foldl_cons, List.foldl_append]
  rfl

/-- A text matches when the automaton accepts it with its marks. -/
theorem matchesText_eq_true (hdet : d.Deterministic) (h : Follows sc d) (mem : Memory) (p n : Nat) :
    sc.matchesText mem p n = true ↔ textWord (textAt mem p n) ∈ d.lang := by
  unfold matchesText
  rw [h.final, runText_eq_run hdet h, Fsm.lang_eq, hdet.initial,
    ← hdet.mem_acceptsFrom_iff_run hdet.size_pos]

section Compile

variable [StdPartition Nat]

theorem compile_eq_some (hmark : m.Marked) (h : compile m = some sc) :
    ∃ d, m.canonize 0 = some d ∧ d.Deterministic ∧ Follows sc d := by
  obtain ⟨d, hd, rfl⟩ := Option.map_eq_some_iff.mp h
  have hdet := Fsm.deterministic_canonize hmark hd
  exact ⟨d, hd, hdet, follows_buildScanner hdet⟩

theorem matchesText_compile (hm : m.Valid) (hmark : m.Marked) (h : compile m = some sc)
    (mem : Memory) (p n : Nat) :
    sc.matchesText mem p n = true ↔ textWord (textAt mem p n) ∈ m.lang := by
  obtain ⟨d, hd, hdet, hfollows⟩ := compile_eq_some hmark h
  rw [matchesText_eq_true hdet hfollows, Fsm.lang_canonize_eq hm hmark hd]

/-- The flags of the state that a word leads to: whether the word is accepted, and
whether no word that starts with it is. -/
theorem flags_compile (hm : m.Valid) (hmark : m.Marked) (h : compile m = some sc)
    (x : List Input) : (sc.finals (sc.runWord x) = true ↔ x ∈ m.lang) ∧
      (sc.deads (sc.runWord x) = true ↔ ∀ y, x ++ y ∉ m.lang) := by
  obtain ⟨d, hd, hdet, hfollows⟩ := compile_eq_some hmark h
  have hlang := Fsm.lang_canonize_eq hm hmark hd
  have hrun := hdet.run_lt hdet.size_pos x
  rw [runWord_eq_run hdet hfollows, hfollows.final, hfollows.dead, ← hlang, Fsm.lang_eq,
    hdet.initial]
  refine ⟨(hdet.mem_acceptsFrom_iff_run hdet.size_pos x).symm, ?_⟩
  rw [← not_iff_not, Fsm.notMem_deadStates_iff hdet.valid hrun, hdet.initial]
  simp only [hdet.acceptsFrom_run hdet.size_pos, not_forall, not_not]
  exact and_iff_right ⟨x, path_run hdet hdet.size_pos x⟩

/-- Reading words at a time and skipping comes to the state that the letters of the
text lead to one by one, wherever the text is and whatever is around it. -/
theorem runText_compile (hmark : m.Marked) (h : compile m = some sc) (mem : Memory) (p n : Nat) :
    sc.runText mem p n = sc.runWord (textWord (textAt mem p n)) := by
  obtain ⟨d, -, hdet, hfollows⟩ := compile_eq_some hmark h
  rw [runText_eq_run hdet hfollows, runWord_eq_run hdet hfollows]

theorem exists_compile (hm : m.Valid) (hsize : 2 ^ m.size ≤ 200001) :
    ∃ sc, compile m = some sc := by
  obtain ⟨d, hd⟩ := Option.ne_none_iff_exists'.mp (Fsm.canonize_ne_none hm hsize)
  exact ⟨_, Option.map_eq_some_iff.mpr ⟨d, hd, rfl⟩⟩

end Compile

/-- Memory with one letter in it, and others all around. -/
def seekMemory : Memory := fun p => if p = 17 then 0x61 else 0x62

theorem flags_compile_seek : ∃ sc, compile Fsm.seek = some sc ∧
    (sc.finals (sc.runWord [beginInput, byte 0x61]) = true ↔
      [beginInput, byte 0x61] ∈ Fsm.seek.lang) ∧
    (sc.deads (sc.runWord [beginInput, byte 0x61]) = true ↔
      ∀ y, [beginInput, byte 0x61] ++ y ∉ Fsm.seek.lang) := by
  have hv := Fsm.deterministic_seek.valid
  obtain ⟨sc, hsc⟩ := exists_compile hv (by decide)
  exact ⟨sc, hsc, flags_compile hv (Fsm.marked_of_determined_eq_false rfl) hsc _⟩

theorem runText_compile_seek : ∃ sc, compile Fsm.seek = some sc ∧
    sc.runText seekMemory 5 40 = sc.runWord (textWord (textAt seekMemory 5 40)) := by
  obtain ⟨sc, hsc⟩ := exists_compile Fsm.deterministic_seek.valid (by decide)
  exact ⟨sc, hsc, runText_compile (Fsm.marked_of_determined_eq_false rfl) hsc _ 5 40⟩

end Scanner

/-! ## Patterns -/

/-- The regular expression that a pattern is read as. -/
def Reads (u : Unicode) (pattern : List UInt8) (tree : Alternative) : Prop :=
  ∃ ucs4, Utf8.fromLocal pattern = some ucs4 ∧ Lexer.lex u ucs4 = some tree.terms

/-- Words with some part in a language. -/
theorem mem_anything_mul {L : Language Input} {x : List Input} :
    x ∈ (⊤ * L * ⊤ : Language Input) ↔ ∃ y ∈ L, y <:+: x := by
  rw [Language.mem_mul]
  constructor
  · rintro ⟨a, ha, z, -, rfl⟩
    obtain ⟨w, -, y, hy, rfl⟩ := Language.mem_mul.mp ha
    exact ⟨y, hy, w, z, rfl⟩
  · rintro ⟨y, hy, w, z, rfl⟩
    exact ⟨w ++ y, Language.mem_mul.mpr ⟨w, trivial, y, hy, rfl⟩, z, trivial, rfl⟩

/-- The tree of a pattern is the only one. -/
theorem Reads.unique {u : Unicode} {pattern : List UInt8} {a b : Alternative}
    (ha : Reads u pattern a) (hb : Reads u pattern b) : a = b := by
  obtain ⟨ucs4, h1, h2⟩ := ha
  obtain ⟨ucs4', h1', h2'⟩ := hb
  obtain rfl := Option.some.inj (h1.symm.trans h1')
  exact Alternative.terms_injective (Option.some.inj (h2.symm.trans h2'))

section Patterns

variable [StdPartition Nat] {u : Unicode} {pattern : List UInt8} {tree : Alternative} {m : Fsm}
  {sc : Scanner}

theorem compileRegexp_eq_some (h : compileRegexp u pattern = some sc) :
    ∃ tree m, Reads u pattern tree ∧ tree.Fits ∧ tree.fsm = some m ∧
      Scanner.compile m.surround = some sc := by
  unfold compileRegexp at h
  obtain ⟨ucs4, hucs, h⟩ := Option.bind_eq_some_iff.mp h
  obtain ⟨terms, hterms, h⟩ := Option.bind_eq_some_iff.mp h
  obtain ⟨tree, htree, h⟩ := Option.bind_eq_some_iff.mp h
  obtain ⟨m, hm, hc⟩ := Option.bind_eq_some_iff.mp h
  obtain ⟨rfl, hfits⟩ := parse_eq_some_iff.mp htree
  exact ⟨tree, m, ⟨ucs4, hucs, hterms⟩, hfits, hm, hc⟩

theorem compileRegexp_of_reads (h : Reads u pattern tree) (hfits : tree.Fits)
    (hm : tree.fsm = some m) (hc : Scanner.compile m.surround = some sc) :
    compileRegexp u pattern = some sc := by
  obtain ⟨ucs4, hucs, hterms⟩ := h
  refine Option.bind_eq_some_iff.mpr ⟨ucs4, hucs, ?_⟩
  refine Option.bind_eq_some_iff.mpr ⟨tree.terms, hterms, ?_⟩
  refine Option.bind_eq_some_iff.mpr ⟨tree, parse_eq_some_iff.mpr ⟨rfl, hfits⟩, ?_⟩
  exact Option.bind_eq_some_iff.mpr ⟨m, hm, hc⟩

theorem matchesText_of_reads (h : compileRegexp u pattern = some sc) (hr : Reads u pattern tree)
    (mem : Memory) (p n : Nat) : sc.matchesText mem p n = true ↔
      ∃ y ∈ tree.accepted, y <:+: textWord (Scanner.textAt mem p n) := by
  obtain ⟨tree', m, hr', -, hm, hc⟩ := compileRegexp_eq_some h
  obtain rfl := hr.unique hr'
  have hmeans := (tree.spec hm).1
  rw [Scanner.matchesText_compile hmeans.valid.surround (Fsm.marked_of_determined_eq_false rfl) hc,
    Fsm.lang_surround hmeans.valid, hmeans.lang, mem_anything_mul]

/-- A pattern that compiles has one tree.  If that is solid, a text matches when some
part of it, between the marks for its ends, is a word of the tree. -/
theorem existsUnique_reads (h : compileRegexp u pattern = some sc) :
    (∃! tree, Reads u pattern tree) ∧ ∀ tree, Reads u pattern tree → tree.Solid →
      ∀ mem p n, sc.matchesText mem p n = true ↔
        ∃ y ∈ tree.words, y <:+: textWord (Scanner.textAt mem p n) := by
  obtain ⟨tree, m, hr, -⟩ := compileRegexp_eq_some h
  refine ⟨⟨tree, hr, fun other ho => ho.unique hr⟩, fun other ho hs mem p n => ?_⟩
  rw [matchesText_of_reads h ho, other.accepted_eq hs]

end Patterns

/-- `^(.|$)*` -/
def dotsTree : Alternative :=
  let group := Alternative.either (.single (.single (.plain (.append .empty (.once (.leaf .dot))))))
    (.single (.plain (.append .empty (.once (.leaf .endMark)))))
  .single (.single (.plain (.append (.append .empty (.once (.leaf .beginMark)))
    (.counted (.group group) 0 inf))))

theorem solid_dotsTree : dotsTree.Solid :=
  ⟨⟨trivial, rfl, trivial⟩, rfl, rfl, by decide, ⟨trivial, rfl, trivial⟩, trivial, rfl, trivial⟩

theorem existsUnique_reads_dots :
    ∃ sc, compileRegexp .ascii [0x5E, 0x28, 0x2E, 0x7C, 0x24, 0x29, 0x2A] = some sc ∧
      (∃! tree, Reads .ascii [0x5E, 0x28, 0x2E, 0x7C, 0x24, 0x29, 0x2A] tree) ∧
      ∀ mem p n, sc.matchesText mem p n = true ↔
        ∃ y ∈ dotsTree.words, y <:+: textWord (Scanner.textAt mem p n) := by
  have hr : Reads .ascii [0x5E, 0x28, 0x2E, 0x7C, 0x24, 0x29, 0x2A] dotsTree :=
    ⟨_, rfl, by decide⟩
  obtain ⟨m, hm, hsize⟩ : ∃ m, dotsTree.fsm = some m ∧ 2 ^ m.surround.size ≤ 200001 :=
    ⟨_, rfl, by decide +kernel⟩
  obtain ⟨sc, hsc⟩ := Scanner.exists_compile (dotsTree.spec hm).1.valid.surround hsize
  have hcompile := compileRegexp_of_reads hr (by decide) hm hsc
  obtain ⟨hunique, hmatches⟩ := existsUnique_reads hcompile
  exact ⟨sc, hcompile, hunique, hmatches dotsTree hr solid_dotsTree⟩

/-! ## Patterns that are thrown at -/

/-- Where a pattern has been read and its automaton is built, it is only thrown at when
more than 200001 sets of states are reached. -/
theorem compileRegexp_eq_none_iff [StdPartition Nat] {u : Unicode} {pattern : List UInt8}
    {tree : Alternative} {m : Fsm} (hr : Reads u pattern tree) (hfits : tree.Fits)
    (hm : tree.fsm = some m) : compileRegexp u pattern = none ↔
      m.surround.removeEpsilons.determineTask.Overfull 200001 := by
  have hcompile : Scanner.compile m.surround = none ↔
      m.surround.removeEpsilons.determineTask.Overfull 200001 :=
    Option.map_eq_none_iff.trans (Fsm.canonize_eq_none_iff rfl)
  rw [← hcompile]
  constructor
  · intro h
    cases hc : Scanner.compile m.surround with
    | none => rfl
    | some sc =>
      rw [compileRegexp_of_reads hr hfits hm hc] at h
      exact absurd h (Option.some_ne_none sc)
  · intro h
    cases hc : compileRegexp u pattern with
    | none => rfl
    | some sc =>
      obtain ⟨tree', m', hr', -, hm', hsc⟩ := compileRegexp_eq_some hc
      obtain rfl := hr'.unique hr
      obtain rfl := Option.some.inj (hm'.symm.trans hm)
      rw [h] at hsc
      exact absurd hsc.symm (Option.some_ne_none sc)

theorem compileRegexp_eq_none_iff_sample : ∃ m, sampleTree.fsm = some m ∧
    (compileRegexp .ascii
        [0x5E, 0x28, 0x61, 0x7C, 0x2E, 0x29, 0x2A, 0x62, 0x7B, 0x32, 0x2C, 0x33, 0x7D] = none ↔
      m.surround.removeEpsilons.determineTask.Overfull 200001) := by
  obtain ⟨m, hm⟩ := sampleTree.exists_fsm positive_sampleTree
  exact ⟨m, hm, compileRegexp_eq_none_iff ⟨_, rfl, by decide⟩ (by decide) hm⟩

/-! ## Patterns that match nothing -/

/-- No text matches a pattern that has an empty pair of parentheses in it, or
something that is repeated no times. -/
theorem matchesText_of_hasBare [StdPartition Nat] {u : Unicode} {pattern : List UInt8}
    {sc : Scanner} {c : Concatenation} (h : compileRegexp u pattern = some sc)
    (hr : Reads u pattern (.single (.single (.plain c)))) (hb : c.HasBare) (mem : Memory)
    (p n : Nat) : sc.matchesText mem p n = false := by
  rw [← Bool.not_eq_true, matchesText_of_reads h hr]
  rintro ⟨y, hy, -⟩
  have haccepted : (Alternative.single (.single (.plain c))).accepted = c.accepted := rfl
  rw [haccepted, Concatenation.accepted_of_hasBare hb] at hy
  exact Language.notMem_zero y hy

theorem matchesText_of_hasBare_parentheses : ∃ sc, compileRegexp .ascii [0x28, 0x29] = some sc ∧
    sc.matchesText (fun _ => 0x61) 0 10 = false := by
  let c : Concatenation := .append .empty (.once (.group (.single (.single (.plain .empty)))))
  have hr : Reads .ascii [0x28, 0x29] (.single (.single (.plain c))) :=
    ⟨[0x28, 0x29], by decide, by decide⟩
  have hv : (Fsm.new.concatenate Fsm.new).surround.Valid :=
    (Fsm.valid_new.concatenate Fsm.valid_new).surround
  obtain ⟨sc, hsc⟩ := Scanner.exists_compile hv (by decide)
  have hcompile := compileRegexp_of_reads hr (by decide) rfl hsc
  exact ⟨sc, hcompile, matchesText_of_hasBare hcompile hr (Or.inr rfl) _ 0 10⟩

end Pire
end MediaServer
