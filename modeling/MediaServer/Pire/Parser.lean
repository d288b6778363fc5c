/-
`yyparse`: from terms to the tree of the grammar.

The rules are those of re_parser.y, and the parser goes through the terms once,
with the levels that are open on a stack.  The parser that Bison generates has room
for 200 entries on its stack.  Compiled as C++ with `YYSTYPE_IS_TRIVIAL` zero it gets
no more, and throws at what is nested too deeply.

The parser finds the tree of the terms if they have one and the stack has room for
it (`Alternative.Fits`), and there is never more than one (`parse_eq_some_iff`).
-/
import MediaServer.Pire.Languages

namespace MediaServer
namespace Pire

/-! ## The terms of a tree -/

mutual

def Alternative.terms : Alternative → List Term
  | .single c => c.terms
  | .either a c => a.terms ++ .or :: c.terms

def Conjunction.terms : Conjunction → List Term
  | .single n => n.terms
  | .both c n => c.terms ++ .and :: n.terms

def Negation.terms : Negation → List Term
  | .plain c => c.terms
  | .inverted c => .not :: c.terms

def Concatenation.terms : Concatenation → List Term
  | .empty => []
  | .append c i => c.terms ++ i.terms

def Iteration.terms : Iteration → List Term
  | .once t => t.terms
  | .counted t lower upper => t.terms ++ [.count lower upper]

def Item.terms : Item → List Term
  | .leaf l => [l.term]
  | .group a => .opening :: (a.terms ++ [.closing])

end

/-! ## The parser -/

/-- What has been read between a pair of parentheses: the alternatives and the
conjunction that are complete, whether the negation is one, and what it holds. -/
structure Level where
  alternative : Option Alternative
  conjunction : Option Conjunction
  inverted : Bool
  concatenation : Concatenation

namespace Level

def start : Level := ⟨none, none, false, .empty⟩

def negation (l : Level) : Negation :=
  if l.inverted then .inverted l.concatenation else .plain l.concatenation

def conjoined (l : Level) : Conjunction :=
  match l.conjunction with
  | none => .single l.negation
  | some c => .both c l.negation

def close (l : Level) : Alternative :=
  match l.alternative with
  | none => .single l.conjoined
  | some a => .either a l.conjoined

def append (l : Level) (i : Iteration) : Level :=
  { l with concatenation := .append l.concatenation i }

/-- A count for the last item, which must not have one. -/
def count (l : Level) (lower upper : Int32) : Option Level :=
  match l.concatenation with
  | .append c (.once t) => some { l with concatenation := .append c (.counted t lower upper) }
  | _ => none

/-- A negation sign, which must come first. -/
def invert (l : Level) : Option Level :=
  match l.inverted, l.concatenation with
  | false, .empty => some { l with inverted := true }
  | _, _ => none

/-- The entries of a level on the stack of the parser, but for its concatenation: the
alternatives so far and `|`, the conjunction so far and `&`, and the negation sign. -/
def entries (l : Level) : Nat :=
  (if l.alternative.isSome then 2 else 0) + (if l.conjunction.isSome then 2 else 0) +
    if l.inverted then 1 else 0

end Level

/-- The entries below the concatenation of a level: the first state, and the
concatenation and the parenthesis of each level around. -/
def below : List Level → Level → Nat
  | [], l => 1 + l.entries
  | outer :: stack, l => below stack outer + 2 + l.entries

/-- `YYINITDEPTH` -/
def yyInitDepth : Nat := 200

/-- A stack with room for so many entries grows to `n` of them.  The parser gives up
when it has used the last. -/
def push (room n : Nat) (next : Option Alternative) : Option Alternative :=
  if n < room then next else none

/-- A level holds its concatenation, and behind it a term has one entry, a count
another one, and what is in parentheses three. -/
def parse (room : Nat) : List Level → Level → List Term → Option Alternative
  | stack, l, [] =>
    push room (below stack l + 1) <|
      match stack with
      | [] => some l.close
      | _ :: _ => none
  | stack, l, t :: ts =>
    push room (below stack l + 1) <|
      match t with
      | .letters range =>
        push room (below stack l + 2)
          (parse room stack (l.append (.once (.leaf (.letters range)))) ts)
      | .dot =>
        push room (below stack l + 2) (parse room stack (l.append (.once (.leaf .dot))) ts)
      | .beginMark =>
        push room (below stack l + 2) (parse room stack (l.append (.once (.leaf .beginMark))) ts)
      | .endMark =>
        push room (below stack l + 2) (parse room stack (l.append (.once (.leaf .endMark))) ts)
      | .count lower upper =>
        push room (below stack l + 3) ((l.count lower upper).bind fun l => parse room stack l ts)
      | .not => l.invert.bind fun l => parse room stack l ts
      | .and => parse room stack ⟨l.alternative, some l.conjoined, false, .empty⟩ ts
      | .or => parse room stack ⟨some l.close, none, false, .empty⟩ ts
      | .opening => parse room (l :: stack) Level.start ts
      | .closing =>
        match stack with
        | [] => none
        | outer :: stack =>
          push room (below stack outer + 4)
            (parse room stack (outer.append (.once (.group l.close))) ts)

/-- `yre_parse`: nothing where it throws. -/
def yreParse (ts : List Term) : Option Alternative := parse yyInitDepth [] Level.start ts

/-! ## The stack -/

section Stack

variable {room : Nat}

theorem of_push {n : Nat} {x : Option Alternative} {a : Alternative} (h : push room n x = some a) :
    x = some a := by
  unfold push at h
  split at h
  · exact h
  · exact absurd h.symm (Option.some_ne_none a)

theorem push_push (m n : Nat) (x : Option Alternative) :
    push room m (push room n x) = push room (max m n) x := by
  unfold push
  by_cases hm : m < room
  · by_cases hn : n < room
    · rw [if_pos hm, if_pos hn, if_pos (Nat.max_lt.mpr ⟨hm, hn⟩)]
    · rw [if_pos hm, if_neg hn, if_neg fun h => hn (Nat.max_lt.mp h).2]
  · rw [if_neg hm, if_neg fun h => hm (Nat.max_lt.mp h).1]

/-- What has had room already has it again. -/
theorem push_of_le {m n : Nat} (h : n ≤ m) (x : Option Alternative) :
    push room m (push room n x) = push room m x := by
  rw [push_push, Nat.max_eq_left h]

theorem push_of_ge {m n : Nat} (h : m ≤ n) (x : Option Alternative) :
    push room m (push room n x) = push room n x := by
  rw [push_push, Nat.max_eq_right h]

theorem parse_eq_push (stack : List Level) (l : Level) (ts : List Term) :
    parse room stack l ts = push room (below stack l + 1) (parse room stack l ts) := by
  cases ts with
  | nil => exact (push_of_le (Nat.le_refl _) _).symm
  | cons t ts => exact (push_of_le (Nat.le_refl _) _).symm

end Stack

theorem below_eq (stack : List Level) (l : Level) :
    below stack l = below stack Level.start + l.entries := by
  cases stack <;> rfl

mutual

/-- The most entries that a symbol takes on the stack above what is there before it. -/
def Alternative.height : Alternative → Nat
  | .single c => c.height
  | .either a c => max a.height (2 + c.height)

def Conjunction.height : Conjunction → Nat
  | .single n => n.height
  | .both c n => max c.height (2 + n.height)

def Negation.height : Negation → Nat
  | .plain c => c.height
  | .inverted c => 1 + c.height

def Concatenation.height : Concatenation → Nat
  | .empty => 1
  | .append c i => max c.height (1 + i.height)

def Iteration.height : Iteration → Nat
  | .once t => t.height
  | .counted t _ _ => max t.height 2

def Item.height : Item → Nat
  | .leaf _ => 1
  | .group a => max (1 + a.height) 3

end

/-- The stack has room for the first state and the symbols of the tree. -/
def Alternative.Fits (a : Alternative) : Prop := 1 + a.height < yyInitDepth

instance (a : Alternative) : Decidable a.Fits := inferInstanceAs (Decidable (_ < _))

/-- Pairs of parentheses in one another, with nothing in the last. -/
def parenthesized : Nat → Alternative
  | 0 => .single (.single (.plain .empty))
  | n + 1 => .single (.single (.plain (.append .empty (.once (.group (parenthesized n))))))

theorem height_parenthesized (n : Nat) : (parenthesized (n + 1)).height = 2 * n + 4 := by
  induction n with
  | zero => rfl
  | succ n ih =>
    show max 1 (1 + max (1 + (parenthesized (n + 1)).height) 3) = _
    rw [ih]
    omega

/-- There is room for 98 pairs of parentheses. -/
theorem fits_parenthesized_iff (n : Nat) : (parenthesized n).Fits ↔ n ≤ 98 := by
  unfold Alternative.Fits yyInitDepth
  cases n with
  | zero => decide
  | succ n =>
    rw [height_parenthesized]
    omega

theorem Concatenation.height_pos (c : Concatenation) : 1 ≤ c.height := by
  match c with
  | .empty => exact Nat.le_refl 1
  | .append c i => exact (Concatenation.height_pos c).trans (Nat.le_max_left _ _)

namespace Level

theorem entries_negation (l : Level) :
    (if l.inverted then 1 else 0) + 1 ≤ l.negation.height := by
  have hc := l.concatenation.height_pos
  unfold negation
  cases l.inverted with
  | false => exact hc
  | true => exact Nat.add_le_add_left hc 1

theorem entries_conjoined (l : Level) :
    (if l.conjunction.isSome then 2 else 0) + (if l.inverted then 1 else 0) + 1 ≤
      l.conjoined.height := by
  have hn := l.entries_negation
  unfold conjoined
  cases l.conjunction with
  | none => exact (Nat.zero_add _).symm ▸ hn
  | some c =>
    refine Nat.le_trans ?_ (Nat.le_max_right c.height (2 + l.negation.height))
    rw [if_pos (show (some c).isSome = true from rfl)]
    omega

/-- The entries of a level are among those that its alternatives take. -/
theorem entries_close (l : Level) : l.entries + 1 ≤ l.close.height := by
  have hc := l.entries_conjoined
  unfold entries close
  cases l.alternative with
  | none =>
    rw [if_neg (show ¬ (none : Option Alternative).isSome = true from Bool.false_ne_true)]
    show 0 + _ + _ + 1 ≤ l.conjoined.height
    omega
  | some a =>
    refine Nat.le_trans ?_ (Nat.le_max_right a.height (2 + l.conjoined.height))
    rw [if_pos (show (some a).isSome = true from rfl)]
    omega

end Level

/-! ## What is parsed has been read -/

namespace Level

/-- The terms read at a level. -/
def terms (l : Level) : List Term :=
  (match l.alternative with
    | none => []
    | some a => a.terms ++ [.or]) ++
  (match l.conjunction with
    | none => []
    | some c => c.terms ++ [.and]) ++
  ((if l.inverted then [.not] else []) ++ l.concatenation.terms)

theorem terms_negation (l : Level) :
    l.negation.terms = (if l.inverted then [.not] else []) ++ l.concatenation.terms := by
  unfold negation
  cases l.inverted <;> rfl

theorem terms_conjoined (l : Level) : l.conjoined.terms =
    (match l.conjunction with
      | none => []
      | some c => c.terms ++ [.and]) ++ l.negation.terms := by
  unfold conjoined
  cases l.conjunction with
  | none => rfl
  | some c =>
    show c.terms ++ .and :: l.negation.terms = _
    rw [List.append_cons]

theorem terms_close (l : Level) : l.close.terms = l.terms := by
  unfold close terms
  rw [List.append_assoc, ← terms_negation, ← terms_conjoined]
  cases l.alternative with
  | none => rfl
  | some a =>
    show a.terms ++ .or :: l.conjoined.terms = _
    rw [List.append_cons]

theorem terms_append (l : Level) (i : Iteration) : (l.append i).terms = l.terms ++ i.terms := by
  unfold terms
  show _ ++ (_ ++ (l.concatenation.terms ++ i.terms)) = _
  simp only [List.append_assoc]
  rfl

theorem terms_count {l l' : Level} {lower upper : Int32} (h : l.count lower upper = some l') :
    l'.terms = l.terms ++ [.count lower upper] := by
  unfold count at h
  split at h
  · rename_i c t hc
    obtain rfl := Option.some.inj h
    unfold terms
    rw [hc]
    show _ ++ (_ ++ (c.terms ++ (t.terms ++ [.count lower upper]))) =
      _ ++ (_ ++ (c.terms ++ t.terms)) ++ _
    simp only [List.append_assoc]
  · exact absurd h.symm (Option.some_ne_none l')

theorem terms_invert {l l' : Level} (h : l.invert = some l') : l'.terms = l.terms ++ [.not] := by
  unfold invert at h
  split at h
  · rename_i hi hc
    obtain rfl := Option.some.inj h
    unfold terms
    rw [hi, hc]
    show _ ++ ([Term.not] ++ []) = _ ++ ([] ++ []) ++ [Term.not]
    simp only [List.append_nil]
  · exact absurd h.symm (Option.some_ne_none l')

end Level

/-- The terms read at the levels that are open. -/
def openTerms : List Level → List Term
  | [] => []
  | l :: stack => openTerms stack ++ (l.terms ++ [.opening])

/-- What comes out of the parser spells what went in. -/
theorem terms_of_parse {room : Nat} (ts : List Term) {stack : List Level} {l : Level}
    {a : Alternative} (h : parse room stack l ts = some a) : a.terms = openTerms stack ++ (l.terms ++ ts) := by
  induction ts generalizing stack l with
  | nil =>
    have h := of_push h
    cases stack with
    | nil =>
      obtain rfl := Option.some.inj h
      rw [Level.terms_close, List.append_nil]
      rfl
    | cons outer stack => exact absurd h.symm (Option.some_ne_none a)
  | cons t ts ih =>
    have h := of_push h
    have hleaf : ∀ x : Leaf, x.term = t →
        push room (below stack l + 2) (parse room stack (l.append (.once (.leaf x))) ts) = some a →
        a.terms = openTerms stack ++ (l.terms ++ t :: ts) := by
      rintro x rfl hx
      rw [ih (of_push hx), Level.terms_append, List.append_assoc]
      rfl
    cases t with
    | letters range => exact hleaf (.letters range) rfl h
    | dot => exact hleaf .dot rfl h
    | beginMark => exact hleaf .beginMark rfl h
    | endMark => exact hleaf .endMark rfl h
    | count lower upper =>
      obtain ⟨l', hl, h⟩ := Option.bind_eq_some_iff.mp (of_push h)
      rw [ih h, Level.terms_count hl, List.append_assoc]
      rfl
    | not =>
      obtain ⟨l', hl, h⟩ := Option.bind_eq_some_iff.mp h
      rw [ih h, Level.terms_invert hl, List.append_assoc]
      rfl
    | or =>
      rw [ih h]
      show _ ++ (((l.close.terms ++ [.or]) ++ [] ++ ([] ++ [])) ++ ts) = _
      rw [Level.terms_close]
      simp only [List.append_nil, List.append_assoc]
      rfl
    | and =>
      rw [ih h]
      show _ ++ ((_ ++ (l.conjoined.terms ++ [.and]) ++ ([] ++ [])) ++ ts) = _
      rw [Level.terms_conjoined, Level.terms_negation]
      unfold Level.terms
      simp only [List.append_nil, List.append_assoc]
      rfl
    | opening =>
      rw [ih h]
      show (openTerms stack ++ (l.terms ++ [.opening])) ++ (([] ++ [] ++ ([] ++ [])) ++ ts) = _
      simp only [List.append_assoc, List.nil_append]
      rfl
    | closing =>
      cases stack with
      | nil => exact absurd h.symm (Option.some_ne_none a)
      | cons outer stack =>
        rw [ih (of_push h), Level.terms_append]
        show _ ++ ((outer.terms ++ (.opening :: (l.close.terms ++ [.closing]))) ++ ts) =
          (openTerms stack ++ (outer.terms ++ [.opening])) ++ _
        rw [Level.terms_close]
        simp only [List.append_assoc, List.cons_append, List.nil_append]

/-! ## Whatever has a tree is parsed -/

section Room

variable (room : Nat)

mutual

theorem Alternative.parse_terms (a : Alternative) (stack : List Level) (ts : List Term) :
    ∃ l : Level, l.close = a ∧ parse room stack Level.start (a.terms ++ ts) =
      push room (below stack Level.start + a.height) (parse room stack l ts) := by
  match a with
  | .single c =>
    obtain ⟨l, hl, hc, h⟩ := Conjunction.parse_terms c none stack ts
    refine ⟨l, ?_, h⟩
    unfold Level.close
    rw [hl, hc]
  | .either a c =>
    obtain ⟨l, rfl, h⟩ := Alternative.parse_terms a stack (.or :: (c.terms ++ ts))
    obtain ⟨l', hl', hc, h'⟩ := Conjunction.parse_terms c (some l.close) stack ts
    refine ⟨l', ?_, ?_⟩
    · unfold Level.close at hl' ⊢
      rw [hl', hc]
    · have hroom := l.entries_close
      have hnext : below stack ⟨some l.close, none, false, .empty⟩ =
          below stack Level.start + 2 := below_eq stack _
      show parse room stack Level.start ((l.close.terms ++ .or :: c.terms) ++ ts) =
        push room (_ + max l.close.height (2 + c.height)) _
      rw [List.append_assoc, List.cons_append, h]
      show push room _ (push room (below stack l + 1) (parse room stack _ _)) = _
      rw [below_eq stack l, push_of_le (by omega), h', hnext, push_push, Nat.add_assoc,
        Nat.add_max_add_left]

theorem Conjunction.parse_terms (c : Conjunction) (alternative : Option Alternative)
    (stack : List Level) (ts : List Term) :
    ∃ l : Level, l.alternative = alternative ∧ l.conjoined = c ∧
      parse room stack ⟨alternative, none, false, .empty⟩ (c.terms ++ ts) =
        push room (below stack ⟨alternative, none, false, .empty⟩ + c.height)
          (parse room stack l ts) := by
  match c with
  | .single n =>
    obtain ⟨l, hl, hc, hn, h⟩ := Negation.parse_terms n alternative none stack ts
    refine ⟨l, hl, ?_, h⟩
    unfold Level.conjoined
    rw [hc, hn]
  | .both c n =>
    obtain ⟨l, hl, rfl, h⟩ := Conjunction.parse_terms c alternative stack (.and :: (n.terms ++ ts))
    obtain ⟨l', hl', hc, hn, h'⟩ :=
      Negation.parse_terms n l.alternative (some l.conjoined) stack ts
    refine ⟨l', hl'.trans hl, ?_, ?_⟩
    · unfold Level.conjoined at hc ⊢
      rw [hc, hn]
    · subst hl
      have hroom := l.entries_conjoined
      have hentries : l.entries = (if l.alternative.isSome then 2 else 0) +
          (if l.conjunction.isSome then 2 else 0) + if l.inverted then 1 else 0 := rfl
      have hfirst : below stack ⟨l.alternative, none, false, .empty⟩ =
          below stack Level.start + ((if l.alternative.isSome then 2 else 0) + 0 + 0) :=
        below_eq stack _
      have hnext : below stack ⟨l.alternative, some l.conjoined, false, .empty⟩ =
          below stack Level.start + ((if l.alternative.isSome then 2 else 0) + 2 + 0) :=
        below_eq stack _
      show parse room stack _ ((l.conjoined.terms ++ .and :: n.terms) ++ ts) =
        push room (_ + max l.conjoined.height (2 + n.height)) _
      rw [List.append_assoc, List.cons_append, h]
      show push room _ (push room (below stack l + 1) (parse room stack _ _)) = _
      rw [below_eq stack l, push_of_le (by omega), h', hnext, push_push, hfirst]
      congr 1
      omega

theorem Negation.parse_terms (n : Negation) (alternative : Option Alternative)
    (conjunction : Option Conjunction) (stack : List Level) (ts : List Term) :
    ∃ l : Level, l.alternative = alternative ∧ l.conjunction = conjunction ∧ l.negation = n ∧
      parse room stack ⟨alternative, conjunction, false, .empty⟩ (n.terms ++ ts) =
        push room (below stack ⟨alternative, conjunction, false, .empty⟩ + n.height)
          (parse room stack l ts) := by
  match n with
  | .plain c =>
    exact ⟨⟨alternative, conjunction, false, c⟩, rfl, rfl, rfl,
      Concatenation.parse_terms c _ _ _ stack ts⟩
  | .inverted c =>
    refine ⟨⟨alternative, conjunction, true, c⟩, rfl, rfl, rfl, ?_⟩
    have hnext : below stack ⟨alternative, conjunction, true, .empty⟩ =
        below stack ⟨alternative, conjunction, false, .empty⟩ + 1 := by
      rw [below_eq, below_eq stack ⟨alternative, conjunction, false, .empty⟩]
      rfl
    show push room _ (parse room stack ⟨alternative, conjunction, true, .empty⟩ (c.terms ++ ts)) =
      push room (_ + (1 + c.height)) _
    rw [Concatenation.parse_terms c, hnext, push_of_ge (by omega), Nat.add_assoc]

theorem Concatenation.parse_terms (c : Concatenation) (alternative : Option Alternative)
    (conjunction : Option Conjunction) (inverted : Bool) (stack : List Level) (ts : List Term) :
    parse room stack ⟨alternative, conjunction, inverted, .empty⟩ (c.terms ++ ts) =
      push room (below stack ⟨alternative, conjunction, inverted, .empty⟩ + c.height)
        (parse room stack ⟨alternative, conjunction, inverted, c⟩ ts) := by
  match c with
  | .empty => exact parse_eq_push _ _ _
  | .append c i =>
    have hsame : below stack ⟨alternative, conjunction, inverted, c⟩ =
        below stack ⟨alternative, conjunction, inverted, .empty⟩ := by
      rw [below_eq, below_eq stack ⟨alternative, conjunction, inverted, .empty⟩]
      rfl
    show parse room stack _ ((c.terms ++ i.terms) ++ ts) =
      push room (_ + max c.height (1 + i.height)) _
    rw [List.append_assoc, Concatenation.parse_terms c, Iteration.parse_terms i, hsame, push_push,
      Nat.add_assoc, Nat.add_max_add_left]
    rfl

theorem Iteration.parse_terms (i : Iteration) (l : Level) (stack : List Level) (ts : List Term) :
    parse room stack l (i.terms ++ ts) =
      push room (below stack l + 1 + i.height) (parse room stack (l.append i) ts) := by
  match i with
  | .once t => exact Item.parse_terms t l stack ts
  | .counted t lower upper =>
    have hsame : below stack (l.append (.once t)) = below stack l := by
      rw [below_eq, below_eq stack l]
      rfl
    show parse room stack l ((t.terms ++ [.count lower upper]) ++ ts) =
      push room (_ + max t.height 2) _
    rw [List.append_assoc, Item.parse_terms t]
    show push room _ (push room (below stack (l.append (.once t)) + 1)
      (push room (below stack (l.append (.once t)) + 3) (parse room stack _ _))) = _
    rw [hsame, push_push, push_push]
    show push room _ (parse room stack (l.append (.counted t lower upper)) ts) = _
    congr 1
    omega

theorem Item.parse_terms (t : Item) (l : Level) (stack : List Level) (ts : List Term) :
    parse room stack l (t.terms ++ ts) =
      push room (below stack l + 1 + t.height) (parse room stack (l.append (.once t)) ts) := by
  match t with
  | .leaf x =>
    have hleaf : push room (below stack l + 1)
        (push room (below stack l + 2) (parse room stack (l.append (.once (.leaf x))) ts)) =
        push room (below stack l + 1 + 1) (parse room stack (l.append (.once (.leaf x))) ts) :=
      push_of_ge (Nat.le_succ _) _
    cases x <;> exact hleaf
  | .group a =>
    obtain ⟨l', rfl, h⟩ := Alternative.parse_terms a (l :: stack) (.closing :: ts)
    have hroom := l'.entries_close
    have hfirst : below (l :: stack) Level.start = below stack l + 2 := rfl
    show push room (below stack l + 1)
        (parse room (l :: stack) Level.start ((l'.close.terms ++ [.closing]) ++ ts)) =
      push room (_ + max (1 + l'.close.height) 3) _
    rw [List.append_assoc]
    show push room _ (parse room (l :: stack) Level.start (l'.close.terms ++ .closing :: ts)) = _
    rw [h]
    show push room _ (push room _ (push room (below (l :: stack) l' + 1)
      (push room (below stack l + 4) (parse room stack _ _)))) = _
    rw [below_eq (l :: stack) l', push_of_le (n := _ + 1) (by omega), push_push, push_push, hfirst]
    congr 1
    omega

end

theorem parse_terms_self (a : Alternative) :
    parse room [] Level.start a.terms = push room (1 + a.height) (some a) := by
  obtain ⟨l, rfl, h⟩ := Alternative.parse_terms room a [] []
  have hroom := l.entries_close
  have hfirst : below [] Level.start = 1 := rfl
  rw [List.append_nil] at h
  rw [h]
  show push room _ (push room (below [] l + 1) (some l.close)) = _
  rw [below_eq [] l, hfirst, push_of_le (by omega)]

end Room

/-- No terms have two trees. -/
theorem Alternative.terms_injective {a b : Alternative} (h : a.terms = b.terms) : a = b := by
  have hread : ∀ c : Alternative, c.height ≤ max a.height b.height →
      parse (max a.height b.height + 2) [] Level.start c.terms = some c := by
    intro c hc
    rw [parse_terms_self]
    exact if_pos (by omega)
  have ha := hread a (Nat.le_max_left _ _)
  rw [h, hread b (Nat.le_max_right _ _)] at ha
  exact (Option.some.inj ha).symm

/-- The parser finds the tree of the terms if the stack has room for it. -/
theorem parse_eq_some_iff {ts : List Term} {a : Alternative} :
    yreParse ts = some a ↔ a.terms = ts ∧ a.Fits := by
  constructor
  · intro h
    obtain rfl : a.terms = ts := terms_of_parse ts h
    refine ⟨rfl, ?_⟩
    unfold yreParse at h
    rw [parse_terms_self] at h
    by_contra hfits
    exact absurd ((if_neg hfits).symm.trans h).symm (Option.some_ne_none a)
  · rintro ⟨rfl, hfits⟩
    unfold yreParse
    rw [parse_terms_self]
    exact if_pos hfits

/-- The parser finds the one tree that the terms have, and it throws where they have
none or the stack is too small for it. -/
theorem yreParse_spec (ts : List Term) :
    (∃ a, yreParse ts = some a ∧ a.Fits ∧ ∀ b : Alternative, b.terms = ts ↔ b = a) ∨
      (yreParse ts = none ∧ ((∀ b : Alternative, b.terms ≠ ts) ∨
        ∃ a, ¬ a.Fits ∧ ∀ b : Alternative, b.terms = ts ↔ b = a)) := by
  have hone : ∀ a : Alternative, a.terms = ts → ∀ b : Alternative, b.terms = ts ↔ b = a := by
    intro a ha b
    refine ⟨fun hb => Alternative.terms_injective (hb.trans ha.symm), ?_⟩
    rintro rfl
    exact ha
  cases h : yreParse ts with
  | none =>
    refine Or.inr ⟨rfl, ?_⟩
    by_cases htree : ∃ a : Alternative, a.terms = ts
    · obtain ⟨a, ha⟩ := htree
      refine Or.inr ⟨a, fun hfits => ?_, hone a ha⟩
      rw [parse_eq_some_iff.mpr ⟨ha, hfits⟩] at h
      exact Option.some_ne_none a h
    · exact Or.inl fun b hb => htree ⟨b, hb⟩
  | some a =>
    obtain ⟨ha, hfits⟩ := parse_eq_some_iff.mp h
    exact Or.inl ⟨a, rfl, hfits, hone a ha⟩

end Pire
end MediaServer
