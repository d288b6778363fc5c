/-
The lexer of patterns, with the features that are installed for this program:
ranges, repetition counts, character classes and matching without regard to case.

A character that has a backslash before it is marked by the bits of `control`, so
that a character of a pattern that has these bits by itself is taken for one.
Every term takes some of the pattern (`length_doLex`), so that the lexer comes to
the end of it.
-/
import MediaServer.Pire.Grammar
import Mathlib.Order.Interval.Finset.Nat

namespace MediaServer
namespace Pire

/-- The functions of the Unicode tables. -/
structure Unicode where
  toUpper : Nat → Nat
  toLower : Nat → Nat
  isUpper : Nat → Bool
  isDigit : Nat → Bool

/-- The tables, as far as they are about ASCII. -/
def Unicode.ascii : Unicode where
  toUpper c := if 'a'.toNat ≤ c ∧ c ≤ 'z'.toNat then c - 32 else c
  toLower c := if 'A'.toNat ≤ c ∧ c ≤ 'Z'.toNat then c + 32 else c
  isUpper c := 'A'.toNat ≤ c ∧ c ≤ 'Z'.toNat
  isDigit c := '0'.toNat ≤ c ∧ c ≤ '9'.toNat

namespace Lexer

/-! ## Characters -/

def control : Nat := 0xF000

def endOfInput : Nat := control ||| 0xFF

/-- `(c & ControlMask) == Control` -/
def isControl (c : Nat) : Bool := c &&& 0xFF00 = control

/-- `c & ~ControlMask` -/
def unmarked (c : Nat) : Nat := c &&& 0xFFFF00FF

def backslash : Nat := 0x5C

/-- `strchr`, which finds the zero at the end of the string too. -/
def strchr (s : List Nat) (c : Nat) : Bool := c % 256 = 0 || s.contains (c % 256)

/-- What is behind a backslash. -/
def getEscaped : List Nat → Option (Nat × List Nat)
  | [] => none
  | c :: input => some (control ||| c, input)

/-- `GetChar`: nothing where it throws. -/
def getChar : List Nat → Option (Nat × List Nat)
  | [] => some (endOfInput, [])
  | c :: input => if c = backslash then getEscaped input else some (c, input)

def peekChar (input : List Nat) : Nat := input.headD endOfInput

def ungetChar (c : Nat) (input : List Nat) : List Nat :=
  if c ≠ endOfInput then c :: input else input

def correctChar (c : Nat) (controls : List Nat) : Nat :=
  if isControl c && strchr controls c then unmarked c
  else if c ≤ 0xFF && strchr controls c then control ||| c
  else c

/-- `CorrectChar(GetChar(), controls)` -/
def getCorrected (controls : List Nat) (input : List Nat) : Option (Nat × List Nat) :=
  (getChar input).map fun r => (correctChar r.1 controls, r.2)

def character (c : Nat) : Term := .letters ⟨{[c]}, false⟩

/-! ## Ranges -/

/-- The controls of a range, which are the characters `^[]-` and the backslash. -/
def controls : List Nat := ['^'.toNat, '['.toNat, ']'.toNat, '-'.toNat, backslash]

/-- The other ones that may be marked in it, `*+{}()$?.&~`. -/
def controls2 : List Nat :=
  ['*'.toNat, '+'.toNat, 0x7B, 0x7D, '('.toNat, ')'.toNat, '$'.toNat, '?'.toNat, '.'.toNat,
    '&'.toNat, '~'.toNat]

/-- `Accepts` of `CharacterRangeReader` -/
def acceptsRange (c : Nat) : Bool :=
  c = '['.toNat || c = control ||| '['.toNat || c = control ||| ']'.toNat

/-- The strings of one character each. -/
def singles (cs : Finset Nat) : Finset (List Nat) := cs.image fun c => [c]

/-- The loop of `Lex`, from the character `ch` on.  A turn takes a character or
more, so that the length of the input is enough fuel. -/
def readRange : Nat → Nat → List Nat → Finset (List Nat) → Option (Finset (List Nat) × List Nat)
  | 0, _, _, _ => none
  | fuel + 1, ch, input, cs =>
    if ch = endOfInput then none
    else if ch = control ||| ']'.toNat then some (cs, input)
    else
      let item : Option (Finset Nat × List Nat) :=
        if !isControl ch && correctChar (peekChar input) controls = control ||| '-'.toNat then do
          let r ← getChar input
          let r ← getCorrected controls r.2
          if isControl r.1 then none else some (Finset.Icc ch r.1, r.2)
        else if ch = control ||| '-'.toNat then some ({'-'.toNat}, input)
        else if isControl ch &&
            (strchr controls2 (unmarked ch) || strchr controls (unmarked ch)) then
          some ({unmarked ch}, input)
        else if !isControl ch || !strchr controls (unmarked ch) then some ({ch}, input)
        else none
      item.bind fun r => (getCorrected controls r.2).bind fun s =>
        readRange fuel s.1 s.2 (cs ∪ singles r.1)

/-- The character that a range goes on with, behind the sign of negation if it
starts with one. -/
def skipNegation (r : Nat × List Nat) : Option (Nat × List Nat) :=
  if r.1 = control ||| '^'.toNat then getCorrected controls r.2 else some r

/-- `Lex` of `CharacterRangeReader` -/
def lexRange (input : List Nat) : Option (Term × List Nat) := do
  let r ← getCorrected controls input
  if r.1 = '['.toNat || r.1 = ']'.toNat then some (character r.1, r.2)
  else do
    let r ← getCorrected controls r.2
    let q ← skipNegation r
    let s ← readRange (q.2.length + 1) q.1 q.2 ∅
    some (.letters ⟨s.1, r.1 = control ||| '^'.toNat⟩, s.2)

/-! ## Counts -/

/-- `Accepts` of `RepetitionCountReader` -/
def acceptsCount (c : Nat) : Bool :=
  c = 0x7B || c = control ||| 0x7B || c = control ||| 0x7D

/-- A number from the character `ch` on, and the character behind it. -/
def readNumber (u : Unicode) : Nat → Nat → List Nat → Int32 → Option (Int32 × Nat × List Nat)
  | 0, _, _, _ => none
  | fuel + 1, ch, input, n =>
    if u.isDigit ch then
      (getChar input).bind fun r =>
        readNumber u fuel r.1 r.2 (n * 10 + Int32.ofInt ((ch : Int) - '0'.toNat))
    else some (n, ch, input)

/-- A number that must be there. -/
def getNumber (u : Unicode) (ch : Nat) (input : List Nat) : Option (Int32 × Nat × List Nat) :=
  if u.isDigit ch then readNumber u (input.length + 2) ch input 0 else none

/-- `Lex` of `RepetitionCountReader` -/
def lexCount (u : Unicode) (input : List Nat) : Option (Term × List Nat) := do
  let r ← getChar input
  if r.1 = control ||| 0x7B || r.1 = control ||| 0x7D then some (character (unmarked r.1), r.2)
  else do
    let r ← getChar r.2
    let lower ← getNumber u r.1 r.2
    if lower.2.1 = 0x7D then some (.count lower.1 lower.1, lower.2.2)
    else if lower.2.1 ≠ ','.toNat then none
    else do
      let r ← getChar lower.2.2
      if r.1 = 0x7D then some (.count lower.1 inf, r.2)
      else do
        let upper ← getNumber u r.1 r.2
        if upper.2.1 ≠ 0x7D then none else some (.count lower.1 upper.1, upper.2.2)

/-! ## Terms -/

/-- The controls of a pattern, which are `|().*+?^$` and the backslash. -/
def patternControls : List Nat :=
  ['|'.toNat, '('.toNat, ')'.toNat, '.'.toNat, '*'.toNat, '+'.toNat, '?'.toNat, '^'.toNat,
    '$'.toNat, backslash]

/-- The term of a character that no feature accepts. -/
def plainTerm (ch : Nat) : Term :=
  if ch = '|'.toNat then .or
  else if ch = '('.toNat then .opening
  else if ch = ')'.toNat then .closing
  else if ch = '.'.toNat then .dot
  else if ch = '*'.toNat then .count 0 inf
  else if ch = '+'.toNat then .count 1 inf
  else if ch = '?'.toNat then .count 0 1
  else if ch = '^'.toNat then .beginMark
  else if ch = '$'.toNat then .endMark
  else if isControl ch && strchr patternControls (unmarked ch) then character (unmarked ch)
  else character ch

/-- `DoLex`; no term at the end. -/
def doLex (u : Unicode) (input : List Nat) : Option (Option Term × List Nat) := do
  let r ← getChar input
  let input := ungetChar r.1 r.2
  let ch := peekChar input
  if ch = endOfInput then some (none, input)
  else if acceptsCount ch then (lexCount u input).map fun r => (some r.1, r.2)
  else if acceptsRange ch then (lexRange input).map fun r => (some r.1, r.2)
  else (getChar input).map fun r => (some (plainTerm r.1), r.2)

/-! ## Features that change terms -/

/-- `Alter` of `CaseInsensitiveImpl` -/
def ignoreCase (u : Unicode) (strings : Finset (List Nat)) : Finset (List Nat) :=
  strings.biUnion fun s =>
    match s with
    | [c] => {[u.toUpper c], [u.toLower c]}
    | s => {s}

/-- `CharClassesTable`, each class by its bounds. -/
def charClasses : List (Nat × List (Nat × Nat)) :=
  let l := [('A'.toNat, 'Z'.toNat), ('a'.toNat, 'z'.toNat)]
  let c := [(0x0410, 0x044F), (0x0401, 0x0401), (0x0451, 0x0451)]
  [('l'.toNat, l), ('c'.toNat, c), ('w'.toNat, l ++ c), ('d'.toNat, [('0'.toNat, '9'.toNat)]),
    ('s'.toNat, [(0x20, 0x20), (0x09, 0x09), (0x0D, 0x0D), (0x0A, 0x0A), (0xA0, 0xA0)]),
    ('n'.toNat, [(0x0A, 0x0A)]), ('r'.toNat, [(0x0D, 0x0D)]), ('t'.toNat, [(0x09, 0x09)])]

/-- `Has` and `Get` -/
def charClass (u : Unicode) (c : Nat) : Option (Finset Nat) :=
  (charClasses.lookup (u.toLower (unmarked c))).map fun bounds =>
    bounds.foldl (fun s b => s ∪ Finset.Icc b.1 b.2) ∅

/-- The class that a string of one marked character names. -/
def namedClass (u : Unicode) (s : List Nat) : Option (Nat × Finset Nat) :=
  match s with
  | [c] => if isControl c then (charClass u c).map (c, ·) else none
  | _ => none

/-- `Alter` of `CharClassesImpl` -/
def expandClasses (u : Unicode) (range : CharacterRange) : Option CharacterRange :=
  let named := range.strings.filter fun s => (namedClass u s).isSome
  let upper : Finset (List Nat) := named.filter fun s => s.any fun c => u.isUpper (unmarked c)
  let neg : Bool := upper ≠ ∅
  let pos : Bool := named \ upper ≠ ∅
  if neg && (pos || range.negated) then none
  else some
    { strings := range.strings.biUnion fun s =>
        match namedClass u s with
        | some c => singles c.2
        | none => {s}
      negated := neg || range.negated }

/-- The terms of ranges, as the features leave them. -/
def alter (u : Unicode) : Term → Option Term
  | .letters range => do
    let range ← expandClasses u { range with strings := ignoreCase u range.strings }
    if ∃ s ∈ range.strings, s.any isControl then none else some (.letters range)
  | t => some t

/-- `Lex` until the end of the pattern; nothing where it throws. -/
def lexTerms (u : Unicode) : Nat → List Nat → Option (List Term)
  | 0, _ => none
  | fuel + 1, input => do
    let r ← doLex u input
    match r.1 with
    | none => some []
    | some t => do
      let t ← alter u t
      let ts ← lexTerms u fuel r.2
      some (t :: ts)

def lex (u : Unicode) (pattern : List Nat) : Option (List Term) :=
  lexTerms u (pattern.length + 1) pattern

/-! ## The end of the pattern -/

section Length

variable {u : Unicode}

theorem length_getChar {input : List Nat} {r : Nat × List Nat} (h : getChar input = some r) :
    r.2.length ≤ input.length ∧ (input ≠ [] → r.2.length < input.length) := by
  cases input with
  | nil =>
    obtain rfl := Option.some.inj h
    exact ⟨Nat.le_refl _, fun hne => absurd rfl hne⟩
  | cons c input =>
    by_cases hc : c = backslash
    · rw [getChar, if_pos hc] at h
      cases input with
      | nil => exact absurd h.symm (Option.some_ne_none r)
      | cons d input =>
        obtain rfl := Option.some.inj h
        simp only [List.length_cons]
        omega
    · rw [getChar, if_neg hc] at h
      obtain rfl := Option.some.inj h
      simp only [List.length_cons]
      omega

theorem length_getCorrected {cs input : List Nat} {r : Nat × List Nat}
    (h : getCorrected cs input = some r) :
    r.2.length ≤ input.length ∧ (input ≠ [] → r.2.length < input.length) := by
  obtain ⟨s, hs, hr⟩ := Option.map_eq_some_iff.mp h
  have hlen := length_getChar hs
  rwa [← hr]

theorem length_readRange (fuel : Nat) {ch : Nat} {input : List Nat} {cs : Finset (List Nat)}
    {r : Finset (List Nat) × List Nat} (h : readRange fuel ch input cs = some r) :
    r.2.length ≤ input.length := by
  induction fuel generalizing ch input cs with
  | zero => exact absurd h.symm (Option.some_ne_none r)
  | succ fuel ih =>
    unfold readRange at h
    split at h
    · exact absurd h.symm (Option.some_ne_none r)
    split at h
    · rw [← Option.some.inj h]
    obtain ⟨item, hitem, h⟩ := Option.bind_eq_some_iff.mp h
    obtain ⟨s, hs, h⟩ := Option.bind_eq_some_iff.mp h
    have hrest := (length_getCorrected hs).1
    have hle := ih h
    suffices hlen : item.2.length ≤ input.length by omega
    split at hitem
    · obtain ⟨a, ha, hitem⟩ := Option.bind_eq_some_iff.mp hitem
      obtain ⟨b, hb, hitem⟩ := Option.bind_eq_some_iff.mp hitem
      have h1 := (length_getChar ha).1
      have h2 := (length_getCorrected hb).1
      split at hitem
      · exact absurd hitem.symm (Option.some_ne_none item)
      · rw [← Option.some.inj hitem]
        exact Nat.le_trans h2 h1
    · split_ifs at hitem <;> first
        | exact absurd hitem.symm (Option.some_ne_none item)
        | (rw [← Option.some.inj hitem])

theorem length_lexRange {input : List Nat} {r : Term × List Nat} (hne : input ≠ [])
    (h : lexRange input = some r) : r.2.length < input.length := by
  obtain ⟨a, ha, h⟩ := Option.bind_eq_some_iff.mp h
  have h1 := (length_getCorrected ha).2 hne
  split at h
  · rw [← Option.some.inj h]
    exact h1
  obtain ⟨b, hb, h⟩ := Option.bind_eq_some_iff.mp h
  have h2 := (length_getCorrected hb).1
  obtain ⟨c, hc, h⟩ := Option.bind_eq_some_iff.mp h
  obtain ⟨s, hs, h⟩ := Option.bind_eq_some_iff.mp h
  have h3 : c.2.length ≤ b.2.length := by
    unfold skipNegation at hc
    split at hc
    · exact (length_getCorrected hc).1
    · rw [← Option.some.inj hc]
  have h4 := length_readRange _ hs
  rw [← Option.some.inj h]
  show s.2.length < input.length
  omega

theorem length_readNumber (fuel : Nat) {ch : Nat} {input : List Nat} {n : Int32}
    {r : Int32 × Nat × List Nat} (h : readNumber u fuel ch input n = some r) :
    r.2.2.length ≤ input.length := by
  induction fuel generalizing ch input n with
  | zero => exact absurd h.symm (Option.some_ne_none r)
  | succ fuel ih =>
    unfold readNumber at h
    split at h
    · obtain ⟨a, ha, h⟩ := Option.bind_eq_some_iff.mp h
      exact Nat.le_trans (ih h) (length_getChar ha).1
    · rw [← Option.some.inj h]

theorem length_getNumber {ch : Nat} {input : List Nat} {r : Int32 × Nat × List Nat}
    (h : getNumber u ch input = some r) : r.2.2.length ≤ input.length := by
  unfold getNumber at h
  split at h
  · exact length_readNumber _ h
  · exact absurd h.symm (Option.some_ne_none r)

theorem length_lexCount {input : List Nat} {r : Term × List Nat} (hne : input ≠ [])
    (h : lexCount u input = some r) : r.2.length < input.length := by
  obtain ⟨a, ha, h⟩ := Option.bind_eq_some_iff.mp h
  have h1 := (length_getChar ha).2 hne
  split at h
  · rw [← Option.some.inj h]
    exact h1
  obtain ⟨b, hb, h⟩ := Option.bind_eq_some_iff.mp h
  have h2 := (length_getChar hb).1
  obtain ⟨lower, hl, h⟩ := Option.bind_eq_some_iff.mp h
  have h3 := length_getNumber hl
  split at h
  · rw [← Option.some.inj h]
    show lower.2.2.length < input.length
    omega
  split at h
  · exact absurd h.symm (Option.some_ne_none r)
  obtain ⟨c, hc, h⟩ := Option.bind_eq_some_iff.mp h
  have h4 := (length_getChar hc).1
  split at h
  · rw [← Option.some.inj h]
    show c.2.length < input.length
    omega
  obtain ⟨upper, hu, h⟩ := Option.bind_eq_some_iff.mp h
  have h5 := length_getNumber hu
  split at h
  · exact absurd h.symm (Option.some_ne_none r)
  · rw [← Option.some.inj h]
    show upper.2.2.length < input.length
    omega

/-- Every term takes a character. -/
theorem length_doLex {input rest : List Nat} {t : Term} (h : doLex u input = some (some t, rest)) :
    rest.length < input.length := by
  obtain ⟨a, ha, h⟩ := Option.bind_eq_some_iff.mp h
  simp only at h
  split at h
  · exact absurd (congrArg Prod.fst (Option.some.inj h)) (Option.some_ne_none t).symm
  rename_i hend
  have hne : ungetChar a.1 a.2 ≠ [] := by
    intro hnil
    rw [hnil] at hend
    exact hend rfl
  have hlen : (ungetChar a.1 a.2).length ≤ input.length := by
    have h1 := length_getChar ha
    unfold ungetChar at hne ⊢
    split
    · have hinput : input ≠ [] := by
        rintro rfl
        rename_i hc
        rw [← Option.some.inj ha] at hc
        exact hc rfl
      exact h1.2 hinput
    · exact h1.1
  refine Nat.lt_of_lt_of_le ?_ hlen
  split at h
  · obtain ⟨r, hr, h⟩ := Option.map_eq_some_iff.mp h
    obtain ⟨-, rfl⟩ := Prod.mk.inj h
    exact length_lexCount hne hr
  split at h
  · obtain ⟨r, hr, h⟩ := Option.map_eq_some_iff.mp h
    obtain ⟨-, rfl⟩ := Prod.mk.inj h
    exact length_lexRange hne hr
  · obtain ⟨r, hr, h⟩ := Option.map_eq_some_iff.mp h
    obtain ⟨-, rfl⟩ := Prod.mk.inj h
    exact (length_getChar hr).2 hne

/-- More fuel than there are characters changes nothing. -/
theorem lexTerms_fuel (f g : Nat) {input : List Nat} (hf : input.length < f)
    (hg : input.length < g) : lexTerms u f input = lexTerms u g input := by
  induction f generalizing g input with
  | zero => exact absurd hf (Nat.not_lt_zero _)
  | succ f ih =>
    cases g with
    | zero => exact absurd hg (Nat.not_lt_zero _)
    | succ g =>
      unfold lexTerms
      cases hd : doLex u input with
      | none => rfl
      | some r =>
        obtain ⟨t, rest⟩ := r
        cases t with
        | none => rfl
        | some t =>
          have hlen := length_doLex hd
          have hrest := ih g (show rest.length < f by omega) (by omega)
          show (alter u t).bind _ = (alter u t).bind _
          simp only [hrest]

end Length

end Lexer
end Pire
end MediaServer
