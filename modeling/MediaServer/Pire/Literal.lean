/-
Patterns that stand for a text.

Any ASCII text can be written as a pattern, with a backslash before each character
that a term of the grammar starts with (`quote`).  Such a pattern compiles up to a
hundred thousand characters, and it matches where the text occurs, but for the case
of letters (`compileRegexp_quote`).  The bound is on the states that determining
makes of it, two for each character.
-/
import MediaServer.Pire.Chains
import MediaServer.Pire.Regexp

namespace MediaServer
namespace Pire

namespace Literal

def upper (c : Nat) : Nat := if 'a'.toNat ≤ c ∧ c ≤ 'z'.toNat then c - 32 else c

def lower (c : Nat) : Nat := if 'A'.toNat ≤ c ∧ c ≤ 'Z'.toNat then c + 32 else c

/-- The characters that do not stand for themselves. -/
def special : List Nat := Lexer.patternControls ++ ['['.toNat, 0x7B]

/-- A text as a pattern. -/
def quote (text : List UInt8) : List UInt8 :=
  text.flatMap fun b => if b.toNat ∈ special then [0x5C, b] else [b]

theorem quote_eq_self {text : List UInt8} (h : ∀ b ∈ text, b.toNat ∉ special) :
    quote text = text := by
  unfold quote
  rw [List.flatMap_congr fun b hb => if_neg (h b hb)]
  exact List.flatMap_singleton' text

end Literal

/-- What the tables have for ASCII. -/
structure Unicode.Ascii (u : Unicode) : Prop where
  toUpper : ∀ c < 0x80, u.toUpper c = Literal.upper c
  toLower : ∀ c < 0x80, u.toLower c = Literal.lower c

namespace Literal

open Automata

theorem upper_lt {c : Nat} (h : c < 0x80) : upper c < 0x80 := by
  unfold upper
  split <;> omega

theorem lower_lt {c : Nat} (h : c < 0x80) : lower c < 0x80 := by
  have hZ : 'Z'.toNat = 90 := rfl
  unfold lower
  split <;> omega

/-- Two characters that differ in case only. -/
theorem eq_upper_or_eq_lower (c d : Nat) :
    d = upper c ∨ d = lower c ↔ upper d = upper c := by
  have ha : 'a'.toNat = 97 := rfl
  have hz : 'z'.toNat = 122 := rfl
  have hA : 'A'.toNat = 65 := rfl
  have hZ : 'Z'.toNat = 90 := rfl
  unfold upper lower
  rw [ha, hz, hA, hZ]
  split_ifs <;> omega

/-! ## Terms -/

/-- A character in both of its cases. -/
def bothCases (c : Nat) : CharacterRange := ⟨{[upper c], [lower c]}, false⟩

theorem isControl_of_lt {c : Nat} (h : c < 0x80) : Lexer.isControl c = false := by
  have h' : ∀ c < 0x80, Lexer.isControl c = false := by decide
  exact h' c h

/-- The term that starts with a character. -/
theorem doLex_of_getChar {u : Unicode} {input s : List Nat} {c : Nat}
    (hget : Lexer.getChar input = some (c, s)) (hback : c ≠ Lexer.backslash)
    (hend : c ≠ Lexer.endOfInput) : Lexer.doLex u input =
      if Lexer.acceptsCount c then (Lexer.lexCount u (c :: s)).map fun r => (some r.1, r.2)
      else if Lexer.acceptsRange c then (Lexer.lexRange (c :: s)).map fun r => (some r.1, r.2)
      else some (some (Lexer.plainTerm c), s) := by
  have hagain : Lexer.getChar (c :: s) = some (c, s) := if_neg hback
  have hunget : Lexer.ungetChar c s = c :: s := if_pos hend
  unfold Lexer.doLex
  rw [hget]
  show (if Lexer.peekChar (Lexer.ungetChar c s) = _ then _ else _) = _
  rw [hunget]
  show (if c = Lexer.endOfInput then _ else if Lexer.acceptsCount c then _ else
    if Lexer.acceptsRange c then _ else (Lexer.getChar (c :: s)).map _) = _
  rw [if_neg hend, hagain]
  rfl

theorem doLex_plain {u : Unicode} {c : Nat} (hlt : c < 0x80) (h : c ∉ special) (s : List Nat) :
    Lexer.doLex u (c :: s) = some (some (Lexer.character c), s) := by
  have hcs : ∀ d ∈ special, c ≠ d := fun d hd he => h (he ▸ hd)
  have hne : ∀ d, Lexer.control ||| d ≠ c := by
    intro d hd
    have hle : Lexer.control ≤ Lexer.control ||| d := Nat.left_le_or
    have hcontrol : Lexer.control = 0xF000 := rfl
    omega
  have hget : Lexer.getChar (c :: s) = some (c, s) := if_neg (hcs Lexer.backslash (by decide))
  have hend : c ≠ Lexer.endOfInput := (hne _).symm
  have hrep : Lexer.acceptsCount c = false := by
    unfold Lexer.acceptsCount
    rw [decide_eq_false (hcs 0x7B (by decide)), decide_eq_false (hne _).symm,
      decide_eq_false (hne _).symm]
    rfl
  have hletters : Lexer.acceptsRange c = false := by
    unfold Lexer.acceptsRange
    rw [decide_eq_false (hcs '['.toNat (by decide)), decide_eq_false (hne _).symm,
      decide_eq_false (hne _).symm]
    rfl
  have hterm : Lexer.plainTerm c = Lexer.character c := by
    unfold Lexer.plainTerm
    rw [isControl_of_lt hlt]
    simp only [if_neg (hcs '|'.toNat (by decide)), if_neg (hcs '('.toNat (by decide)),
      if_neg (hcs ')'.toNat (by decide)), if_neg (hcs '.'.toNat (by decide)),
      if_neg (hcs '*'.toNat (by decide)), if_neg (hcs '+'.toNat (by decide)),
      if_neg (hcs '?'.toNat (by decide)), if_neg (hcs '^'.toNat (by decide)),
      if_neg (hcs '$'.toNat (by decide)), Bool.false_and, Bool.false_eq_true, if_false]
  rw [doLex_of_getChar hget (hcs Lexer.backslash (by decide)) hend, hrep, hletters, hterm]
  rfl

theorem lexCount_escaped (u : Unicode) (s : List Nat) :
    Lexer.lexCount u ((Lexer.control ||| 0x7B) :: s) = some (Lexer.character 0x7B, s) := by
  have hget : Lexer.getChar ((Lexer.control ||| 0x7B) :: s) =
      some (Lexer.control ||| 0x7B, s) := rfl
  have hmark : Lexer.unmarked (Lexer.control ||| 0x7B) = 0x7B := by decide
  unfold Lexer.lexCount
  rw [hget, Option.bind_eq_bind, Option.bind_some]
  dsimp only
  rw [decide_eq_true rfl, Bool.true_or, if_pos rfl, hmark]

theorem lexRange_escaped (s : List Nat) :
    Lexer.lexRange ((Lexer.control ||| '['.toNat) :: s) =
      some (Lexer.character '['.toNat, s) := by
  have hget : Lexer.getChar ((Lexer.control ||| '['.toNat) :: s) =
      some (Lexer.control ||| '['.toNat, s) := rfl
  have hcorrect : Lexer.correctChar (Lexer.control ||| '['.toNat) Lexer.controls = '['.toNat := by
    decide
  unfold Lexer.lexRange Lexer.getCorrected
  rw [hget, Option.map_some, hcorrect, Option.bind_eq_bind, Option.bind_some]
  dsimp only
  rw [decide_eq_true rfl, Bool.true_or, if_pos rfl]

/-- A backslash takes any meaning from a character. -/
theorem doLex_escaped {u : Unicode} {c : Nat} (h : c ∈ special) (s : List Nat) :
    Lexer.doLex u (Lexer.backslash :: c :: s) = some (some (Lexer.character c), s) := by
  have hget : Lexer.getChar (Lexer.backslash :: c :: s) = some (Lexer.control ||| c, s) := rfl
  have key : ∀ c ∈ special, Lexer.control ||| c ≠ Lexer.backslash ∧
      Lexer.control ||| c ≠ Lexer.endOfInput ∧ (c = 0x7B ∨ c = '['.toNat ∨
        (Lexer.acceptsCount (Lexer.control ||| c) = false ∧
          Lexer.acceptsRange (Lexer.control ||| c) = false ∧
          Lexer.plainTerm (Lexer.control ||| c) = Lexer.character c)) := by decide
  obtain ⟨hback, hend, hcases⟩ := key c h
  rw [doLex_of_getChar hget hback hend]
  rcases hcases with rfl | rfl | ⟨hcount, hrange, hterm⟩
  · have hcount : Lexer.acceptsCount (Lexer.control ||| 0x7B) = true := rfl
    rw [if_pos hcount, lexCount_escaped]
    rfl
  · have hcount : Lexer.acceptsCount (Lexer.control ||| '['.toNat) = false := rfl
    have hrange : Lexer.acceptsRange (Lexer.control ||| '['.toNat) = true := rfl
    rw [hcount, hrange, lexRange_escaped]
    rfl
  · rw [hcount, hrange, hterm]
    rfl

theorem doLex_quote {u : Unicode} {b : UInt8} (h : b.toNat < 0x80) (s : List Nat) :
    Lexer.doLex u ((quote [b]).map UInt8.toNat ++ s) =
      some (some (Lexer.character b.toNat), s) := by
  unfold quote
  rw [List.flatMap_singleton]
  split
  · rename_i hb
    exact doLex_escaped hb s
  · rename_i hb
    exact doLex_plain h hb s

theorem ignoreCase_singleton (u : Unicode) (c : Nat) :
    Lexer.ignoreCase u {[c]} = {[u.toUpper c], [u.toLower c]} := Finset.singleton_biUnion

/-- Strings without marks name no class. -/
theorem expandClasses_of_unmarked (u : Unicode) {range : CharacterRange}
    (h : ∀ s ∈ range.strings, s.any Lexer.isControl = false) :
    Lexer.expandClasses u range = some range := by
  have hnone : ∀ s ∈ range.strings, Lexer.namedClass u s = none := by
    intro s hs
    have hany := h s hs
    unfold Lexer.namedClass
    split
    · rename_i c
      rw [List.any_cons, List.any_nil, Bool.or_false] at hany
      rw [hany]
      rfl
    · rfl
  have hnamed : (range.strings.filter fun s => (Lexer.namedClass u s).isSome) = ∅ := by
    refine Finset.filter_eq_empty_iff.mpr fun s hs => ?_
    rw [hnone s hs]
    exact Bool.false_ne_true
  unfold Lexer.expandClasses
  rw [hnamed]
  simp only [Finset.filter_empty, ne_eq, not_true_eq_false, decide_false, Bool.false_and,
    Bool.false_eq_true, if_false, Bool.false_or]
  refine congrArg (fun strings => some (CharacterRange.mk strings range.negated)) ?_
  refine (Finset.biUnion_congr rfl fun s hs => ?_).trans Finset.biUnion_singleton_eq_self
  rw [hnone s hs]

theorem alter_character {u : Unicode} (hu : u.Ascii) {c : Nat} (h : c < 0x80) :
    Lexer.alter u (Lexer.character c) = some (.letters (bothCases c)) := by
  have hboth : Lexer.ignoreCase u {[c]} = {[upper c], [lower c]} := by
    rw [ignoreCase_singleton, hu.toUpper c h, hu.toLower c h]
  have hmark : ∀ s ∈ (bothCases c).strings, s.any Lexer.isControl = false := by
    intro s hs
    rcases Finset.mem_insert.mp hs with rfl | hs
    · rw [List.any_cons, isControl_of_lt (upper_lt h)]
      rfl
    · rw [Finset.mem_singleton.mp hs, List.any_cons, isControl_of_lt (lower_lt h)]
      rfl
  show (Lexer.expandClasses u ⟨Lexer.ignoreCase u {[c]}, false⟩).bind _ = _
  rw [hboth]
  show (Lexer.expandClasses u (bothCases c)).bind _ = _
  rw [expandClasses_of_unmarked u hmark]
  refine if_neg ?_
  rintro ⟨s, hs, hany⟩
  rw [hmark s hs] at hany
  exact Bool.false_ne_true hany

theorem quote_cons (b : UInt8) (text : List UInt8) :
    quote (b :: text) = quote [b] ++ quote text := by
  unfold quote
  rw [List.flatMap_cons, List.flatMap_singleton]

theorem length_quote (b : UInt8) : 0 < (quote [b]).length := by
  unfold quote
  rw [List.flatMap_singleton]
  split
  · exact Nat.two_pos
  · exact Nat.one_pos

theorem lex_quote {u : Unicode} (hu : u.Ascii) {text : List UInt8}
    (h : ∀ b ∈ text, b.toNat < 0x80) : Lexer.lex u ((quote text).map UInt8.toNat) =
      some ((text.map UInt8.toNat).map fun c => .letters (bothCases c)) := by
  suffices key : ∀ fuel, (quote text).length < fuel →
      Lexer.lexTerms u fuel ((quote text).map UInt8.toNat) =
        some ((text.map UInt8.toNat).map fun c => .letters (bothCases c)) from
    key _ (by rw [List.length_map]; exact Nat.lt_succ_self _)
  induction text with
  | nil =>
    intro fuel hfuel
    obtain ⟨fuel, rfl⟩ := Nat.exists_eq_succ_of_ne_zero (Nat.ne_of_gt hfuel)
    rfl
  | cons b text ih =>
    intro fuel hfuel
    have hlen := length_quote b
    rw [quote_cons, List.length_append] at hfuel
    obtain ⟨fuel, rfl⟩ : ∃ f, fuel = f + 1 := ⟨fuel - 1, by omega⟩
    have hb := h b List.mem_cons_self
    have hs := ih (fun d hd => h d (List.mem_cons_of_mem b hd)) fuel (by omega)
    unfold Lexer.lexTerms
    rw [quote_cons, List.map_append, doLex_quote hb]
    show (Lexer.alter u (Lexer.character b.toNat)).bind _ = _
    rw [alter_character hu hb]
    show (Lexer.lexTerms u fuel ((quote text).map UInt8.toNat)).bind _ = _
    rw [hs]
    rfl

/-! ## Trees -/

def item (c : Nat) : Iteration := .once (.leaf (.letters (bothCases c)))

def append (t : Concatenation) (s : List Nat) : Concatenation :=
  s.foldl (fun t c => .append t (item c)) t

def tree (s : List Nat) : Alternative := .single (.single (.plain (append .empty s)))

theorem terms_append (t : Concatenation) (s : List Nat) :
    (append t s).terms = t.terms ++ s.map fun c => .letters (bothCases c) := by
  induction s generalizing t with
  | nil => exact (List.append_nil _).symm
  | cons c s ih =>
    show (append (.append t (item c)) s).terms = _
    rw [ih]
    show (t.terms ++ [Term.letters (bothCases c)]) ++ _ = _
    rw [List.append_assoc]
    rfl

theorem terms_tree (s : List Nat) :
    (tree s).terms = s.map fun c => .letters (bothCases c) := terms_append .empty s

theorem height_append {t : Concatenation} (h : t.height ≤ 2) (s : List Nat) :
    (append t s).height ≤ 2 := by
  induction s generalizing t with
  | nil => exact h
  | cons c s ih => exact ih (Nat.max_le.mpr ⟨h, Nat.le_refl 2⟩)

theorem fits_tree (s : List Nat) : (tree s).Fits :=
  Nat.lt_of_le_of_lt (Nat.add_le_add_left (height_append (t := .empty) (by decide) s) 1)
    (by decide)

/-! ## Automata -/

/-- The bytes that a character is read as. -/
def ReadAs (c : Nat) (b : UInt8) : Prop := upper b.toNat = upper c

theorem toLocal_of_lt {c : Nat} (h : c < 0x80) : Utf8.toLocal c = [UInt8.ofNat c] := by
  rw [Utf8.toLocal_eq (Nat.lt_trans h (by decide))]
  exact if_pos h

theorem readAs_ofNat {c d : Nat} (hd : d < 0x80) (h : d = upper c ∨ d = lower c) :
    ReadAs c (UInt8.ofNat d) := by
  have hbyte : (UInt8.ofNat d).toNat = d := UInt8.toNat_ofNat_of_lt (Nat.lt_trans hd (by decide))
  unfold ReadAs
  rw [hbyte, ← eq_upper_or_eq_lower]
  exact h

theorem mem_spelled_bothCases {c : Nat} (h : c < 0x80) {w : List UInt8} :
    w ∈ ((bothCases c).strings.sort.map spell).filter (· ≠ []) ↔ ∃ b, ReadAs c b ∧ w = [b] := by
  have hstrings : ∀ s, s ∈ (bothCases c).strings ↔ s = [upper c] ∨ s = [lower c] := by
    intro s
    show s ∈ ({[upper c], [lower c]} : Finset (List Nat)) ↔ _
    rw [Finset.mem_insert, Finset.mem_singleton]
  have hspell : ∀ d < 0x80, [d].flatMap Utf8.toLocal = [UInt8.ofNat d] := fun d hd => by
    rw [List.flatMap_cons, toLocal_of_lt hd]
    rfl
  rw [mem_spelled]
  constructor
  · rintro ⟨s, hs, -, rfl⟩
    rcases (hstrings s).mp hs with rfl | rfl
    · exact ⟨_, readAs_ofNat (upper_lt h) (Or.inl rfl), hspell _ (upper_lt h)⟩
    · exact ⟨_, readAs_ofNat (lower_lt h) (Or.inr rfl), hspell _ (lower_lt h)⟩
  · rintro ⟨b, hb, rfl⟩
    have hb' := (eq_upper_or_eq_lower c b.toNat).mpr hb
    have hlt : b.toNat < 0x80 := by
      rcases hb' with hb' | hb'
      · exact hb' ▸ upper_lt h
      · exact hb' ▸ lower_lt h
    refine ⟨[b.toNat], (hstrings _).mpr ?_, List.cons_ne_nil _ _, ?_⟩
    · rcases hb' with hb' | hb'
      · exact Or.inl (congrArg (fun d => [d]) hb')
      · exact Or.inr (congrArg (fun d => [d]) hb')
    · rw [hspell _ hlt, UInt8.ofNat_toNat]

theorem chain_appendRange {m : Fsm} {pattern : List (UInt8 → Prop)} (h : m.Chain pattern)
    {c : Nat} (hc : c < 0x80) : ∃ j, appendRange m (bothCases c) = some j ∧
      j.Chain (pattern ++ [ReadAs c]) := by
  have hmem := fun w => mem_spelled_bothCases hc (w := w)
  unfold appendRange
  simp only
  generalize ((bothCases c).strings.sort.map spell).filter (· ≠ []) = strings at hmem
  have hupper : [UInt8.ofNat (upper c)] ∈ strings :=
    (hmem _).mpr ⟨_, readAs_ofNat (upper_lt hc) (Or.inl rfl), rfl⟩
  have hne : strings ≠ [] := List.ne_nil_of_mem hupper
  have hone : ∀ w ∈ strings, w.length = 1 := by
    intro w hw
    obtain ⟨b, -, rfl⟩ := (hmem w).mp hw
    rfl
  obtain ⟨j, hj⟩ : ∃ j, m.appendStrings strings = some j := by
    unfold Fsm.appendStrings
    refine ⟨_, if_neg fun hany => ?_⟩
    obtain ⟨w, hw, hnil⟩ := List.any_eq_true.mp hany
    have := hone w hw
    rw [List.isEmpty_iff.mp hnil] at this
    exact Nat.zero_ne_one this
  refine ⟨j, by rw [if_neg hne, hj], ?_⟩
  have hchain := h.append hne hone hj
  have hclass : (fun b => [b] ∈ strings) = ReadAs c := by
    funext b
    refine propext ((hmem [b]).trans ?_)
    constructor
    · rintro ⟨d, hd, hbd⟩
      rwa [List.singleton_inj.mp hbd]
    · exact fun hb => ⟨b, hb, rfl⟩
  rwa [hclass] at hchain

section Compile

variable [StdPartition Nat]

theorem chain_append {s : List Nat} (hs : ∀ c ∈ s, c < 0x80) {t : Concatenation} {m : Fsm}
    {pattern : List (UInt8 → Prop)} (ht : t.fsm = some m) (h : m.Chain pattern) :
    ∃ j, (append t s).fsm = some j ∧ j.Chain (pattern ++ s.map ReadAs) := by
  induction s generalizing t m pattern with
  | nil => exact ⟨m, ht, by rwa [List.map_nil, List.append_nil]⟩
  | cons c s ih =>
    obtain ⟨j, hj, hchain⟩ := chain_appendRange h (hs c List.mem_cons_self)
    have hfsm : (Concatenation.append t (item c)).fsm = some j := by
      show t.fsm.bind _ = some j
      rw [ht]
      exact hj
    obtain ⟨k, hk, hk'⟩ := ih (fun d hd => hs d (List.mem_cons_of_mem c hd)) hfsm hchain
    refine ⟨k, hk, ?_⟩
    rwa [List.append_assoc] at hk'

theorem chain_tree {s : List Nat} (hs : ∀ c ∈ s, c < 0x80) :
    ∃ m, (tree s).fsm = some m ∧ m.Chain (s.map ReadAs) :=
  chain_append hs (t := .empty) rfl Fsm.chain_new

end Compile

/-- Characters that are read as one byte alike are read alike as all. -/
theorem uniform (s : List Nat) : Fsm.Uniform (s.map ReadAs) := by
  intro i j c hi hj d hd
  obtain ⟨P, b, hP, hb, rfl⟩ := hi
  obtain ⟨Q, b', hQ, hb', heq⟩ := hj
  obtain rfl := Fsm.byte_inj heq
  obtain ⟨Q', e, hQ', he, rfl⟩ := hd
  obtain rfl := Option.some.inj (hQ.symm.trans hQ')
  obtain ⟨x, -, rfl⟩ := List.mem_map.mp (List.mem_of_getElem? hP)
  obtain ⟨y, -, rfl⟩ := List.mem_map.mp (List.mem_of_getElem? hQ)
  refine ⟨_, e, hP, ?_, rfl⟩
  unfold ReadAs at hb hb' he ⊢
  rw [he, ← hb', hb]

theorem compile_tree [StdPartition Nat] {s : List Nat} (hs : ∀ c ∈ s, c < 0x80)
    (hlen : s.length < 100000) :
    ∃ m sc, (tree s).fsm = some m ∧ Scanner.compile m.surround = some sc := by
  obtain ⟨m, hm, hchain⟩ := chain_tree hs
  have hcanon := hchain.canonize_ne_none (uniform s) (by rw [List.length_map]; omega)
  obtain ⟨d, hd⟩ := Option.ne_none_iff_exists'.mp hcanon
  exact ⟨m, _, hm, by rw [Scanner.compile, hd]; rfl⟩

/-! ## Words -/

/-- Bytes but for the case of letters. -/
def folded (s : List UInt8) : List Nat := s.map fun b => upper b.toNat

theorem words_bothCases {c : Nat} (h : c < 0x80) :
    (bothCases c).words = Fsm.spelt fun w => ∃ b, ReadAs c b ∧ w = [b] := by
  show Fsm.spelt _ = _
  congr 1
  funext w
  exact propext (mem_spelled.symm.trans (mem_spelled_bothCases h))

theorem mem_accepted_append {s : List Nat} (hs : ∀ c ∈ s, c < 0x80) {t : Concatenation}
    {x : List Input} : x ∈ (append t s).accepted ↔
      ∃ y ∈ t.accepted, ∃ w, folded w = s.map upper ∧ x = y ++ w.map byte := by
  induction s generalizing t with
  | nil =>
    constructor
    · exact fun hx => ⟨x, hx, [], rfl, (List.append_nil x).symm⟩
    · rintro ⟨y, hy, w, hw, rfl⟩
      obtain rfl := List.map_eq_nil_iff.mp hw
      rwa [List.map_nil, List.append_nil]
  | cons c s ih =>
    show x ∈ (append (.append t (item c)) s).accepted ↔ _
    rw [ih fun d hd => hs d (List.mem_cons_of_mem c hd)]
    have hitem : (Concatenation.append t (item c)).accepted =
        t.accepted * (bothCases c).words := rfl
    rw [hitem, words_bothCases (hs c List.mem_cons_self)]
    constructor
    · rintro ⟨y, hy, w, hw, rfl⟩
      obtain ⟨a, ha, z, ⟨v, ⟨b, hb, rfl⟩, rfl⟩, rfl⟩ := Language.mem_mul.mp hy
      refine ⟨a, ha, b :: w, ?_, by rw [List.append_assoc]; rfl⟩
      show upper b.toNat :: folded w = _
      rw [hb, hw]
      rfl
    · rintro ⟨a, ha, w, hw, rfl⟩
      cases w with
      | nil => exact absurd hw.symm (List.cons_ne_nil _ _)
      | cons b w =>
        obtain ⟨hb, hw⟩ := List.cons.inj hw
        refine ⟨a ++ [byte b], ?_, w, hw, by rw [List.append_assoc]; rfl⟩
        exact Language.mem_mul.mpr ⟨a, ha, _, ⟨[b], ⟨b, hb, rfl⟩, rfl⟩, rfl⟩

theorem mem_accepted_tree {s : List Nat} (hs : ∀ c ∈ s, c < 0x80) {x : List Input} :
    x ∈ (tree s).accepted ↔ ∃ w, folded w = s.map upper ∧ x = w.map byte := by
  refine (mem_accepted_append hs (t := .empty)).trans ?_
  constructor
  · rintro ⟨y, hy, w, hw, rfl⟩
    obtain rfl : y = [] := hy
    exact ⟨w, hw, rfl⟩
  · rintro ⟨w, hw, rfl⟩
    exact ⟨[], rfl, w, hw, rfl⟩

/-! ## Matching -/

/-- The byte that a letter is. -/
def unbyte (a : Input) : Option UInt8 :=
  if a.1.val < 256 then some (UInt8.ofNat a.1.val) else none

theorem unbyte_byte (b : UInt8) : unbyte (byte b) = some b := by
  have hval : (byte b).1.val = b.toNat := rfl
  unfold unbyte
  rw [hval, if_pos b.toNat_lt, UInt8.ofNat_toNat]

theorem filterMap_bytes (w : List UInt8) : (w.map byte).filterMap unbyte = w := by
  rw [List.filterMap_map]
  exact (List.filterMap_congr fun b _ => unbyte_byte b).trans List.filterMap_some

theorem filterMap_textWord (text : List UInt8) : (textWord text).filterMap unbyte = text := by
  have hbegin : unbyte beginInput = none := rfl
  have hend : unbyte endInput = none := rfl
  unfold textWord
  rw [List.filterMap_cons_none hbegin, List.filterMap_append, filterMap_bytes,
    List.filterMap_cons_none hend, List.filterMap_nil, List.append_nil]

/-- Bytes cannot take in the marks. -/
theorem bytes_infix_textWord {w text : List UInt8} :
    w.map byte <:+: textWord text ↔ w <:+: text := by
  constructor
  · intro h
    have h' := h.filterMap unbyte
    rwa [filterMap_bytes, filterMap_textWord] at h'
  · rintro ⟨a, z, rfl⟩
    refine ⟨beginInput :: a.map byte, z.map byte ++ [endInput], ?_⟩
    unfold textWord
    simp only [List.map_append, List.append_assoc, List.cons_append]

/-! ## Patterns -/

theorem fromLocal_ascii {pattern : List UInt8} (h : ∀ b ∈ pattern, b.toNat < 0x80) :
    Utf8.fromLocal pattern = some (pattern.map UInt8.toNat) := by
  have hlocal : (pattern.map UInt8.toNat).flatMap Utf8.toLocal = pattern := by
    induction pattern with
    | nil => rfl
    | cons b pattern ih =>
      rw [List.map_cons, List.flatMap_cons, toLocal_of_lt (h b List.mem_cons_self),
        ih fun d hd => h d (List.mem_cons_of_mem b hd), UInt8.ofNat_toNat]
      rfl
  have hrunes : ∀ r ∈ pattern.map UInt8.toNat, r < 0x200000 :=
    List.forall_mem_map.mpr fun b hb => Nat.lt_trans (h b hb) (by decide)
  have hround := Utf8.fromLocal_toLocals hrunes
  rwa [hlocal] at hround

theorem lt_of_mem_quote {text : List UInt8} (h : ∀ b ∈ text, b.toNat < 0x80) :
    ∀ b ∈ quote text, b.toNat < 0x80 := by
  intro b hb
  obtain ⟨d, hd, hb⟩ := List.mem_flatMap.mp hb
  split at hb
  · rcases List.mem_cons.mp hb with rfl | hb
    · decide
    · rw [List.mem_singleton.mp hb]
      exact h d hd
  · rw [List.mem_singleton.mp hb]
    exact h d hd

theorem reads_quote {u : Unicode} (hu : u.Ascii) {text : List UInt8}
    (h : ∀ b ∈ text, b.toNat < 0x80) : Reads u (quote text) (tree (text.map UInt8.toNat)) := by
  refine ⟨_, fromLocal_ascii (lt_of_mem_quote h), ?_⟩
  rw [lex_quote hu h, terms_tree]

section Quoted

variable [StdPartition Nat]

theorem compiles_quote {u : Unicode} (hu : u.Ascii) {text : List UInt8}
    (h : ∀ b ∈ text, b.toNat < 0x80) (hlen : text.length < 100000) :
    ∃ sc, compileRegexp u (quote text) = some sc := by
  have hlt : ∀ c ∈ text.map UInt8.toNat, c < 0x80 := List.forall_mem_map.mpr h
  obtain ⟨m, sc, hm, hsc⟩ := compile_tree hlt (by rwa [List.length_map])
  exact ⟨sc, compileRegexp_of_reads (reads_quote hu h) (fits_tree _) hm hsc⟩

theorem matchesText_quote {u : Unicode} (hu : u.Ascii) {text : List UInt8}
    (h : ∀ b ∈ text, b.toNat < 0x80) {sc : Scanner}
    (hsc : compileRegexp u (quote text) = some sc) (mem : Memory) (p n : Nat) :
    sc.matchesText mem p n = true ↔ folded text <:+: folded (Scanner.textAt mem p n) := by
  have hlt : ∀ c ∈ text.map UInt8.toNat, c < 0x80 := List.forall_mem_map.mpr h
  have hfolded : (text.map UInt8.toNat).map upper = folded text := List.map_map
  rw [matchesText_of_reads hsc (reads_quote hu h)]
  simp only [mem_accepted_tree hlt, hfolded]
  refine Iff.trans ?_ List.infix_map_iff.symm
  constructor
  · rintro ⟨y, ⟨w, hw, rfl⟩, hy⟩
    exact ⟨w, bytes_infix_textWord.mp hy, hw.symm⟩
  · rintro ⟨w, hinfix, hw⟩
    exact ⟨_, ⟨w, hw.symm, rfl⟩, bytes_infix_textWord.mpr hinfix⟩

theorem statesCount_quote {u : Unicode} (hu : u.Ascii) {text : List UInt8}
    (h : ∀ b ∈ text, b.toNat < 0x80) {sc : Scanner}
    (hsc : compileRegexp u (quote text) = some sc) : sc.statesCount ≤ 2 * (text.length + 1) := by
  have hlt : ∀ c ∈ text.map UInt8.toNat, c < 0x80 := List.forall_mem_map.mpr h
  obtain ⟨m, hm, hchain⟩ := chain_tree hlt
  obtain ⟨tree', m', hr, -, hm', hc⟩ := compileRegexp_eq_some hsc
  obtain rfl := hr.unique (reads_quote hu h)
  obtain rfl := Option.some.inj (hm.symm.trans hm')
  obtain ⟨d, hd, rfl⟩ := Option.map_eq_some_iff.mp hc
  have hsize := hchain.size_canonize (uniform _) hd
  rwa [List.length_map, List.length_map] at hsize

/-- A text that is not too long compiles when it is quoted, to a scanner whose states
are no more than two for each character, and it is found wherever it occurs. -/
theorem compileRegexp_quote {u : Unicode} (hu : u.Ascii) {text : List UInt8}
    (h : ∀ b ∈ text, b.toNat < 0x80) (hlen : text.length < 100000) :
    ∃ sc, compileRegexp u (quote text) = some sc ∧ sc.statesCount ≤ 2 * (text.length + 1) ∧
      ∀ mem p n, sc.matchesText mem p n = true ↔
        folded text <:+: folded (Scanner.textAt mem p n) := by
  obtain ⟨sc, hsc⟩ := compiles_quote hu h hlen
  exact ⟨sc, hsc, statesCount_quote hu h hsc, matchesText_quote hu h hsc⟩

end Quoted

theorem ascii_laws : Unicode.ascii.Ascii := ⟨fun _ _ => rfl, fun _ _ => rfl⟩

/-- The pattern is `TV\.`. -/
theorem compileRegexp_quote_tv : ∃ sc,
    compileRegexp .ascii (quote [0x54, 0x56, 0x2E]) = some sc ∧ sc.statesCount ≤ 2 * (3 + 1) ∧
      ∀ mem p n, sc.matchesText mem p n = true ↔
        folded [0x54, 0x56, 0x2E] <:+: folded (Scanner.textAt mem p n) :=
  compileRegexp_quote ascii_laws (by simp) (by simp)

end Literal
end Pire
end MediaServer
