/-
Matching without regard to the case of letters.

The lexer puts both cases of a letter into the range that it reads, so that no part
of an ASCII pattern tells them apart, whatever is negated or intersected in it
(`matchesText_of_folded`).
-/
import MediaServer.Automata.Saturated
import MediaServer.Pire.Literal

namespace MediaServer
namespace Pire

open Automata Literal

/-! ## Cases -/

theorem upper_lt_iff {c : Nat} : upper c < 0x80 ↔ c < 0x80 := by
  have ha : 'a'.toNat = 97 := rfl
  have hz : 'z'.toNat = 122 := rfl
  unfold upper
  rw [ha, hz]
  split <;> omega

theorem lt_of_upper_eq {c d : Nat} (h : upper c = upper d) (hd : d < 0x80) : c < 0x80 := by
  rwa [← upper_lt_iff, h, upper_lt_iff]

theorem eq_of_upper_eq {c d : Nat} (h : upper c = upper d) (hd : 0x80 ≤ d) : c = d := by
  have ha : 'a'.toNat = 97 := rfl
  have hz : 'z'.toNat = 122 := rfl
  unfold upper at h
  rw [ha, hz] at h
  split_ifs at h <;> omega

/-- A letter of the alphabet but for its case. -/
def caseless (a : Input) : Nat := upper a.1.val

theorem exists_byte {a : Input} {b : UInt8} (h : caseless a = caseless (byte b)) :
    ∃ c, a = byte c ∧ upper c.toNat = upper b.toNat := by
  have hlt : a.1.val < 256 := by
    by_contra hge
    have hb : b.toNat = a.1.val := eq_of_upper_eq h.symm (by omega)
    exact hge (hb ▸ b.toNat_lt)
  have hval : (UInt8.ofNat a.1.val).toNat = a.1.val := UInt8.toNat_ofNat_of_lt hlt
  refine ⟨UInt8.ofNat a.1.val, Subtype.ext (Fin.ext hval.symm), ?_⟩
  rw [hval]
  exact h

theorem exists_bytes {x : List Input} {w : List UInt8}
    (h : (w.map byte).map caseless = x.map caseless) :
    ∃ v, x = v.map byte ∧ folded v = folded w := by
  induction w generalizing x with
  | nil => exact ⟨[], List.map_eq_nil_iff.mp h.symm, rfl⟩
  | cons b w ih =>
    cases x with
    | nil => exact absurd h (List.cons_ne_nil _ _)
    | cons a x =>
      obtain ⟨ha, hx⟩ := List.cons.inj h
      obtain ⟨c, rfl, hc⟩ := exists_byte ha.symm
      obtain ⟨v, rfl, hv⟩ := ih hx
      refine ⟨c :: v, rfl, ?_⟩
      show upper c.toNat :: folded v = upper b.toNat :: folded w
      rw [hc, hv]

/-- Bytes that are no ASCII have no case. -/
theorem eq_of_folded_eq {v w : List UInt8} (h : folded v = folded w)
    (hw : ∀ b ∈ w, 0x80 ≤ b.toNat) : v = w := by
  induction w generalizing v with
  | nil => exact List.map_eq_nil_iff.mp h
  | cons b w ih =>
    cases v with
    | nil => exact absurd h.symm (List.cons_ne_nil _ _)
    | cons c v =>
      obtain ⟨hc, hv⟩ := List.cons.inj h
      rw [UInt8.toNat_inj.mp (eq_of_upper_eq hc (hw b List.mem_cons_self)),
        ih hv fun d hd => hw d (List.mem_cons_of_mem b hd)]

/-! ## Characters -/

theorem saturated_oneRune : Saturated caseless Utf8.oneRune := by
  rintro x y h ⟨w, hw, rfl⟩
  obtain ⟨v, rfl, hv⟩ := exists_bytes h
  obtain ⟨b, tails, rfl, hlen, htails⟩ := (Utf8.readRune_whole w).mp hw
  refine ⟨v, (Utf8.readRune_whole v).mpr ?_, rfl⟩
  cases v with
  | nil => exact absurd hv.symm (List.cons_ne_nil _ _)
  | cons c v =>
    obtain ⟨hc, hv⟩ := List.cons.inj hv
    obtain rfl := eq_of_folded_eq hv fun d hd => (htails d hd).1
    refine ⟨c, v, rfl, ?_, htails⟩
    by_cases hb : b.toNat < 0x80
    · have hc' : c.toNat < 0x80 := lt_of_upper_eq hc hb
      rw [Utf8.runeLen_eq, if_pos hb] at hlen
      rw [Utf8.runeLen_eq, if_pos hc']
      exact hlen
    · rwa [UInt8.toNat_inj.mp (eq_of_upper_eq hc (Nat.not_lt.mp hb))]

theorem le_toNat_or {m k : Nat} (hm : 0x80 ≤ m) (hlt : m ||| k < 256) :
    0x80 ≤ (UInt8.ofNat (m ||| k)).toNat := by
  have hval : (UInt8.ofNat (m ||| k)).toNat = m ||| k := UInt8.toNat_ofNat_of_lt hlt
  rw [hval]
  exact Nat.le_trans hm Nat.left_le_or

theorem le_of_mem_toLocal {c : Nat} (h : 0x80 ≤ c) (h' : c < 0x200000) :
    ∀ b ∈ Utf8.toLocal c, 0x80 ≤ b.toNat := by
  have htail : ∀ n, 0x80 ≤ (Utf8.tailByte n).toNat := fun n => by
    rw [Utf8.tailByte_toNat]
    exact Nat.le_add_right _ _
  have hlead : ∀ m k, 0x80 ≤ m → m < 256 → k < 256 → 0x80 ≤ (UInt8.ofNat (m ||| k)).toNat :=
    fun m k hm hm' hk => le_toNat_or hm (Nat.or_lt_two_pow (n := 8) hm' hk)
  rw [Utf8.toLocal_eq h']
  unfold Utf8.putRune
  rw [if_neg (Nat.not_lt.mpr h)]
  simp only [Nat.shiftRight_eq_div_pow]
  split_ifs with h1 h2
  · simp only [List.forall_mem_cons, htail, true_and]
    exact ⟨hlead _ _ (by decide) (by decide) (by omega), fun b hb => absurd hb List.not_mem_nil⟩
  · simp only [List.forall_mem_cons, htail, true_and]
    exact ⟨hlead _ _ (by decide) (by decide) (by omega), fun b hb => absurd hb List.not_mem_nil⟩
  · simp only [List.forall_mem_cons, htail, true_and]
    refine ⟨hlead _ _ (by decide) (by decide) ?_, fun b hb => absurd hb List.not_mem_nil⟩
    exact Nat.lt_of_le_of_lt Nat.and_le_right (by decide)

/-! ## Ranges -/

/-- The range has single characters only, and with a letter its other case. -/
def CharacterRange.Caseless (range : CharacterRange) : Prop :=
  ∀ s ∈ range.strings, ∃ c < 0x200000, s = [c] ∧ ∀ d, upper d = upper c → [d] ∈ range.strings

theorem CharacterRange.Caseless.saturated_listed {range : CharacterRange} (hr : range.Caseless) :
    Saturated caseless range.listed := by
  rintro x y h ⟨w, ⟨s, hs, hne, rfl⟩, rfl⟩
  obtain ⟨c, hlt, rfl, hclosed⟩ := hr s hs
  obtain ⟨v, rfl, hv⟩ := exists_bytes h
  rw [List.flatMap_singleton] at hv
  by_cases hc : c < 0x80
  · rw [toLocal_of_lt hc] at hv
    obtain ⟨b, rfl, hb⟩ := List.map_eq_singleton_iff.mp hv
    have hval : (UInt8.ofNat c).toNat = c := UInt8.toNat_ofNat_of_lt (Nat.lt_trans hc (by decide))
    have hcase : upper b.toNat = upper c := hval ▸ hb
    have hb' : b.toNat < 0x80 := lt_of_upper_eq hcase hc
    refine ⟨[b], ⟨[b.toNat], hclosed _ hcase, List.cons_ne_nil _ _, ?_⟩, rfl⟩
    rw [List.flatMap_singleton, toLocal_of_lt hb', UInt8.ofNat_toNat]
  · obtain rfl := eq_of_folded_eq hv (le_of_mem_toLocal (Nat.not_lt.mp hc) hlt)
    exact ⟨_, ⟨[c], hs, hne, (List.flatMap_singleton _ _).symm⟩, rfl⟩

theorem CharacterRange.Caseless.saturated {range : CharacterRange} (hr : range.Caseless) :
    Saturated caseless range.words := by
  show Saturated caseless (if range.negated then Utf8.oneRune ⊓ range.listedᶜ else range.listed)
  split
  · exact saturated_oneRune.inf hr.saturated_listed.compl
  · exact hr.saturated_listed

/-! ## Trees -/

/-- A letter that is no byte. -/
theorem saturated_mark {c : Input} (h : 0x80 ≤ c.1.val) :
    Saturated caseless (Fsm.oneOf [c.1]) := by
  rintro x y hxy ⟨a, ha, rfl⟩
  obtain ⟨b, rfl, hb⟩ := List.map_eq_singleton_iff.mp hxy.symm
  have hac : a.1 = c.1 := List.mem_singleton.mp ha
  have hval : b.1.val = a.1.val := eq_of_upper_eq hb (hac ▸ h)
  exact ⟨b, List.mem_singleton.mpr ((Fin.ext hval).trans hac), rfl⟩

theorem saturated_repeated {all some : Language Input} (ha : Saturated caseless all)
    (hs : Saturated caseless some) (lower upper : Int32) :
    Saturated caseless (repeated all some lower upper) := by
  unfold repeated
  split_ifs
  · exact ha.add saturated_one
  · exact ha.kstar
  · exact ha.mul ha.kstar
  · exact (hs.pow _).mul ha.kstar
  · exact (hs.pow _).mul ((ha.add saturated_one).pow _)
  · exact hs.pow _

theorem Leaf.saturated {l : Leaf} (h : ∀ r, l.term = .letters r → r.Caseless) :
    Saturated caseless l.words := by
  cases l with
  | letters range => exact (h range rfl).saturated
  | dot => exact saturated_oneRune
  | beginMark => exact saturated_mark (c := beginInput) (by decide)
  | endMark => exact saturated_mark (c := endInput) (by decide)

mutual

theorem Alternative.saturated (a : Alternative) (h : ∀ r, .letters r ∈ a.terms → r.Caseless) :
    Saturated caseless a.accepted := by
  match a with
  | .single c => exact Conjunction.saturated c h
  | .either a c =>
    exact (Alternative.saturated a fun r hr => h r (List.mem_append_left _ hr)).add
      (Conjunction.saturated c fun r hr =>
        h r (List.mem_append_right _ (List.mem_cons_of_mem _ hr)))

theorem Conjunction.saturated (c : Conjunction) (h : ∀ r, .letters r ∈ c.terms → r.Caseless) :
    Saturated caseless c.accepted := by
  match c with
  | .single n => exact Negation.saturated n h
  | .both c n =>
    exact (Conjunction.saturated c fun r hr => h r (List.mem_append_left _ hr)).inf
      (Negation.saturated n fun r hr =>
        h r (List.mem_append_right _ (List.mem_cons_of_mem _ hr)))

theorem Negation.saturated (n : Negation) (h : ∀ r, .letters r ∈ n.terms → r.Caseless) :
    Saturated caseless n.accepted := by
  match n with
  | .plain c => exact Concatenation.saturated c h
  | .inverted c =>
    exact (Concatenation.saturated c fun r hr => h r (List.mem_cons_of_mem _ hr)).compl

theorem Concatenation.saturated (c : Concatenation) (h : ∀ r, .letters r ∈ c.terms → r.Caseless) :
    Saturated caseless c.accepted := by
  match c with
  | .empty => exact saturated_one
  | .append c i =>
    show Saturated caseless (if i.bare then 0 else c.accepted * i.accepted)
    split
    · exact saturated_zero
    · exact (Concatenation.saturated c fun r hr => h r (List.mem_append_left _ hr)).mul
        (Iteration.saturated i fun r hr => h r (List.mem_append_right _ hr))

theorem Iteration.saturated (i : Iteration) (h : ∀ r, .letters r ∈ i.terms → r.Caseless) :
    Saturated caseless i.accepted := by
  match i with
  | .once t => exact Item.saturated t h
  | .counted t lower upper =>
    have ht := Item.saturated t fun r hr => h r (List.mem_append_left _ hr)
    refine saturated_repeated ht ?_ lower upper
    split
    · exact saturated_zero
    · exact ht

theorem Item.saturated (t : Item) (h : ∀ r, .letters r ∈ t.terms → r.Caseless) :
    Saturated caseless t.accepted := by
  match t with
  | .leaf l => exact Leaf.saturated fun r hr => h r (List.mem_singleton.mpr hr.symm)
  | .group a =>
    exact Alternative.saturated a fun r hr =>
      h r (List.mem_cons_of_mem _ (List.mem_append_left _ hr))

end

/-! ## What the lexer reads -/

namespace Lexer

/-- An ASCII character or a marked one. -/
def Basic (c : Nat) : Prop := c < 0x80 ∨ ∃ d < 0x100, c = control ||| d

set_option maxRecDepth 8000 in
theorem marked_spec : ∀ d < 0x100, isControl (control ||| d) = true ∧
    unmarked (control ||| d) = d ∧ control ||| (control ||| d) = control ||| d ∧
      (control ||| d) % 256 = d := by decide

set_option maxRecDepth 8000 in
theorem lt_of_strchr : ∀ d < 0x100,
    (strchr controls d = true → d < 0x80) ∧ (strchr controls2 d = true → d < 0x80) ∧
      (strchr patternControls d = true → d < 0x80) := by decide

theorem strchr_marked (s : List Nat) {d : Nat} (hd : d < 0x100) :
    strchr s (control ||| d) = strchr s d := by
  unfold strchr
  rw [(marked_spec d hd).2.2.2, Nat.mod_eq_of_lt hd]

namespace Basic

theorem mark {c : Nat} (h : Basic c) : Basic (control ||| c) := by
  rcases h with h | ⟨d, hd, rfl⟩
  · exact Or.inr ⟨c, Nat.lt_trans h (by decide), rfl⟩
  · exact Or.inr ⟨d, hd, (marked_spec d hd).2.2.1⟩

theorem lt {c : Nat} (h : Basic c) (hc : isControl c = false) : c < 0x80 := by
  rcases h with h | ⟨d, hd, rfl⟩
  · exact h
  · exact absurd (hc.symm.trans (marked_spec d hd).1) Bool.false_ne_true

theorem exists_mark {c : Nat} (h : Basic c) (hc : isControl c = true) :
    ∃ d < 0x100, c = control ||| d := by
  rcases h with h | h
  · exact absurd ((isControl_of_lt h).symm.trans hc) Bool.false_ne_true
  · exact h

/-- A mark is taken from the controls only. -/
theorem unmarked_lt {c : Nat} (h : Basic c) {s : List Nat}
    (hs : ∀ d < 0x100, strchr s d = true → d < 0x80) (hc : isControl c = true)
    (hm : strchr s (unmarked c) = true) : unmarked c < 0x80 := by
  obtain ⟨d, hd, rfl⟩ := h.exists_mark hc
  rw [(marked_spec d hd).2.1] at hm ⊢
  exact hs d hd hm

theorem correctChar {c : Nat} (h : Basic c) : Basic (correctChar c controls) := by
  unfold Lexer.correctChar
  split_ifs with h1 h2
  · obtain ⟨hc, hm⟩ := Bool.and_eq_true_iff.mp h1
    obtain ⟨d, hd, rfl⟩ := h.exists_mark hc
    rw [strchr_marked _ hd] at hm
    rw [(marked_spec d hd).2.1]
    exact Or.inl ((lt_of_strchr d hd).1 hm)
  · exact h.mark
  · exact h

end Basic

theorem basic_getChar {input : List Nat} (h : ∀ c ∈ input, Basic c) {r : Nat × List Nat}
    (hr : getChar input = some r) : Basic r.1 ∧ ∀ c ∈ r.2, Basic c := by
  cases input with
  | nil =>
    obtain rfl := Option.some.inj hr
    exact ⟨Or.inr ⟨0xFF, by decide, rfl⟩, fun c hc => absurd hc List.not_mem_nil⟩
  | cons c input =>
    obtain ⟨hc, hinput⟩ := List.forall_mem_cons.mp h
    by_cases hb : c = backslash
    · rw [getChar, if_pos hb] at hr
      cases input with
      | nil => exact absurd hr.symm (Option.some_ne_none r)
      | cons d input =>
        obtain rfl := Option.some.inj hr
        obtain ⟨hd, hinput⟩ := List.forall_mem_cons.mp hinput
        exact ⟨hd.mark, hinput⟩
    · rw [getChar, if_neg hb] at hr
      obtain rfl := Option.some.inj hr
      exact ⟨hc, hinput⟩

theorem basic_getCorrected {input : List Nat} (h : ∀ c ∈ input, Basic c) {r : Nat × List Nat}
    (hr : getCorrected controls input = some r) : Basic r.1 ∧ ∀ c ∈ r.2, Basic c := by
  obtain ⟨s, hs, rfl⟩ := Option.map_eq_some_iff.mp hr
  obtain ⟨hc, hrest⟩ := basic_getChar h hs
  exact ⟨hc.correctChar, hrest⟩

/-- The strings that terms have before the features change them. -/
def AreBasic (strings : Finset (List Nat)) : Prop := ∀ s ∈ strings, ∃ c, Basic c ∧ s = [c]

theorem areBasic_singleton {c : Nat} (h : Basic c) : AreBasic {[c]} := fun _ hs =>
  ⟨c, h, Finset.mem_singleton.mp hs⟩

theorem basic_readRange (fuel : Nat) {ch : Nat} {input : List Nat} {cs : Finset (List Nat)}
    (hch : Basic ch) (hinput : ∀ c ∈ input, Basic c) (hcs : AreBasic cs)
    {r : Finset (List Nat) × List Nat} (h : readRange fuel ch input cs = some r) :
    AreBasic r.1 ∧ ∀ c ∈ r.2, Basic c := by
  induction fuel generalizing ch input cs with
  | zero => exact absurd h.symm (Option.some_ne_none r)
  | succ fuel ih =>
    unfold readRange at h
    split at h
    · exact absurd h.symm (Option.some_ne_none r)
    split at h
    · obtain rfl := Option.some.inj h
      exact ⟨hcs, hinput⟩
    obtain ⟨item, hitem, h⟩ := Option.bind_eq_some_iff.mp h
    obtain ⟨s, hs, h⟩ := Option.bind_eq_some_iff.mp h
    suffices hbasic : (∀ c ∈ item.1, Basic c) ∧ ∀ c ∈ item.2, Basic c by
      obtain ⟨hch', hinput'⟩ := basic_getCorrected hbasic.2 hs
      refine ih hch' hinput' (fun t ht => ?_) h
      rcases Finset.mem_union.mp ht with ht | ht
      · exact hcs t ht
      · obtain ⟨c, hc, rfl⟩ := Finset.mem_image.mp ht
        exact ⟨c, hbasic.1 c hc, rfl⟩
    have hone : ∀ {c}, Basic c → ∀ d ∈ ({c} : Finset Nat), Basic d := fun hc d hd =>
      Finset.mem_singleton.mp hd ▸ hc
    split at hitem
    · rename_i hrange
      have hplain : isControl ch = false := by
        simpa using (Bool.and_eq_true_iff.mp hrange).1
      obtain ⟨a, ha, hitem⟩ := Option.bind_eq_some_iff.mp hitem
      obtain ⟨b, hb, hitem⟩ := Option.bind_eq_some_iff.mp hitem
      obtain ⟨hend, hrest⟩ := basic_getCorrected (basic_getChar hinput ha).2 hb
      split at hitem
      · exact absurd hitem.symm (Option.some_ne_none item)
      · rename_i hc
        obtain rfl := Option.some.inj hitem
        have hlt := hend.lt (Bool.eq_false_iff.mpr hc)
        exact ⟨fun c hc => Or.inl (Nat.lt_of_le_of_lt (Finset.mem_Icc.mp hc).2 hlt), hrest⟩
    · split_ifs at hitem with h1 h2 h3
      · obtain rfl := Option.some.inj hitem
        exact ⟨hone (Or.inl (by decide)), hinput⟩
      · obtain rfl := Option.some.inj hitem
        obtain ⟨hc, hm⟩ := Bool.and_eq_true_iff.mp h2
        refine ⟨hone (Or.inl ?_), hinput⟩
        rcases Bool.or_eq_true_iff.mp hm with hm | hm
        · exact hch.unmarked_lt (fun d hd => (lt_of_strchr d hd).2.1) hc hm
        · exact hch.unmarked_lt (fun d hd => (lt_of_strchr d hd).1) hc hm
      · obtain rfl := Option.some.inj hitem
        exact ⟨hone hch, hinput⟩

/-- The term has single characters only, and so has what is left. -/
def Lexed (r : Term × List Nat) : Prop :=
  (∀ range, r.1 = .letters range → AreBasic range.strings) ∧ ∀ c ∈ r.2, Basic c

theorem lexed_character {c : Nat} (hc : Basic c) {rest : List Nat} (h : ∀ c ∈ rest, Basic c) :
    Lexed (character c, rest) :=
  ⟨fun range hr => by rw [← Term.letters.inj hr]; exact areBasic_singleton hc, h⟩

theorem lexed_lexRange {input : List Nat} (h : ∀ c ∈ input, Basic c) {r : Term × List Nat}
    (hr : lexRange input = some r) : Lexed r := by
  obtain ⟨a, ha, hr⟩ := Option.bind_eq_some_iff.mp hr
  obtain ⟨hch, ha'⟩ := basic_getCorrected h ha
  split at hr
  · obtain rfl := Option.some.inj hr
    exact lexed_character hch ha'
  obtain ⟨b, hb, hr⟩ := Option.bind_eq_some_iff.mp hr
  obtain ⟨q, hq, hr⟩ := Option.bind_eq_some_iff.mp hr
  obtain ⟨s, hs, hr⟩ := Option.bind_eq_some_iff.mp hr
  have hb' := basic_getCorrected ha' hb
  have hq' : Basic q.1 ∧ ∀ c ∈ q.2, Basic c := by
    unfold skipNegation at hq
    split at hq
    · exact basic_getCorrected hb'.2 hq
    · rwa [← Option.some.inj hq]
  obtain ⟨hstrings, hrest⟩ := basic_readRange _ hq'.1 hq'.2
    (fun t ht => absurd ht (Finset.notMem_empty t)) hs
  obtain rfl := Option.some.inj hr
  exact ⟨fun range hrange => by rw [← Term.letters.inj hrange]; exact hstrings, hrest⟩

theorem basic_readNumber {u : Unicode} (fuel : Nat) {ch : Nat} {input : List Nat} {n : Int32}
    (h : ∀ c ∈ input, Basic c) {r : Int32 × Nat × List Nat}
    (hr : readNumber u fuel ch input n = some r) : ∀ c ∈ r.2.2, Basic c := by
  induction fuel generalizing ch input n with
  | zero => exact absurd hr.symm (Option.some_ne_none r)
  | succ fuel ih =>
    unfold readNumber at hr
    split at hr
    · obtain ⟨s, hs, hr⟩ := Option.bind_eq_some_iff.mp hr
      exact ih (basic_getChar h hs).2 hr
    · rwa [← Option.some.inj hr]

theorem basic_getNumber {u : Unicode} {ch : Nat} {input : List Nat} (h : ∀ c ∈ input, Basic c)
    {r : Int32 × Nat × List Nat} (hr : getNumber u ch input = some r) : ∀ c ∈ r.2.2, Basic c := by
  unfold getNumber at hr
  split at hr
  · exact basic_readNumber _ h hr
  · exact absurd hr.symm (Option.some_ne_none r)

theorem lexed_count (lower upper : Int32) {rest : List Nat} (h : ∀ c ∈ rest, Basic c) :
    Lexed (.count lower upper, rest) := ⟨fun _ hr => Term.noConfusion hr, h⟩

theorem lexed_lexCount {u : Unicode} {input : List Nat} (h : ∀ c ∈ input, Basic c)
    {r : Term × List Nat} (hr : lexCount u input = some r) : Lexed r := by
  obtain ⟨a, ha, hr⟩ := Option.bind_eq_some_iff.mp hr
  obtain ⟨-, ha'⟩ := basic_getChar h ha
  split at hr
  · rename_i hbrace
    obtain rfl := Option.some.inj hr
    refine lexed_character (Or.inl ?_) ha'
    rcases Bool.or_eq_true_iff.mp hbrace with hc | hc
    · rw [of_decide_eq_true hc]
      decide
    · rw [of_decide_eq_true hc]
      decide
  obtain ⟨b, hb, hr⟩ := Option.bind_eq_some_iff.mp hr
  obtain ⟨lower, hlower, hr⟩ := Option.bind_eq_some_iff.mp hr
  have hlower' := basic_getNumber (basic_getChar ha' hb).2 hlower
  split at hr
  · obtain rfl := Option.some.inj hr
    exact lexed_count _ _ hlower'
  split at hr
  · exact absurd hr.symm (Option.some_ne_none r)
  obtain ⟨d, hd, hr⟩ := Option.bind_eq_some_iff.mp hr
  have hd' := (basic_getChar hlower' hd).2
  split at hr
  · obtain rfl := Option.some.inj hr
    exact lexed_count _ _ hd'
  obtain ⟨upper, hupper, hr⟩ := Option.bind_eq_some_iff.mp hr
  have hupper' := basic_getNumber hd' hupper
  split at hr
  · exact absurd hr.symm (Option.some_ne_none r)
  · obtain rfl := Option.some.inj hr
    exact lexed_count _ _ hupper'

theorem lexed_plainTerm {c : Nat} (hc : Basic c) {rest : List Nat} (h : ∀ c ∈ rest, Basic c) :
    Lexed (plainTerm c, rest) := by
  have hother : ∀ {t : Term}, (∀ range, t ≠ .letters range) → Lexed (t, rest) :=
    fun ht => ⟨fun range hr => absurd hr (ht range), h⟩
  unfold plainTerm
  split_ifs with _ _ _ _ _ _ _ _ _ hm
  iterate 9 exact hother fun _ => Term.noConfusion
  · obtain ⟨hcontrol, hm⟩ := Bool.and_eq_true_iff.mp hm
    exact lexed_character
      (Or.inl (hc.unmarked_lt (fun d hd => (lt_of_strchr d hd).2.2) hcontrol hm)) h
  · exact lexed_character hc h

theorem lexed_doLex {u : Unicode} {input : List Nat} (h : ∀ c ∈ input, Basic c) {t : Term}
    {rest : List Nat} (hr : doLex u input = some (some t, rest)) : Lexed (t, rest) := by
  obtain ⟨a, ha, hr⟩ := Option.bind_eq_some_iff.mp hr
  obtain ⟨hch, ha'⟩ := basic_getChar h ha
  have hback : ∀ c ∈ ungetChar a.1 a.2, Basic c := by
    unfold ungetChar
    split
    · exact List.forall_mem_cons.mpr ⟨hch, ha'⟩
    · exact ha'
  dsimp only at hr
  split at hr
  · exact absurd (Prod.mk.inj (Option.some.inj hr)).1.symm (Option.some_ne_none t)
  split at hr
  · obtain ⟨s, hs, hr⟩ := Option.map_eq_some_iff.mp hr
    obtain ⟨rfl, rfl⟩ : s.1 = t ∧ s.2 = rest := by simpa using hr
    exact lexed_lexCount hback hs
  split at hr
  · obtain ⟨s, hs, hr⟩ := Option.map_eq_some_iff.mp hr
    obtain ⟨rfl, rfl⟩ : s.1 = t ∧ s.2 = rest := by simpa using hr
    exact lexed_lexRange hback hs
  · obtain ⟨s, hs, hr⟩ := Option.map_eq_some_iff.mp hr
    obtain ⟨rfl, rfl⟩ : plainTerm s.1 = t ∧ s.2 = rest := by simpa using hr
    obtain ⟨hc, hrest⟩ := basic_getChar hback hs
    exact lexed_plainTerm hc hrest

end Lexer
/-! ## What the features make of it -/

/-- The tables have no cases for what stands for a marked character. -/
structure Unicode.Marks (u : Unicode) : Prop where
  toUpper : ∀ d < 0x100, u.toUpper (Lexer.control ||| d) = Lexer.control ||| d
  toLower : ∀ d < 0x100, u.toLower (Lexer.control ||| d) = Lexer.control ||| d

namespace Lexer

theorem upper_eq_of_case {c d : Nat} (h : d = upper c ∨ d = lower c) : upper d = upper c :=
  (eq_upper_or_eq_lower c d).mp h

/-- A class has with a letter its other case. -/
theorem charClass_closed {u : Unicode} {c : Nat} {s : Finset Nat} (h : charClass u c = some s) :
    ∀ e ∈ s, e < 0x200000 ∧ ∀ d, upper d = upper e → d ∈ s := by
  obtain ⟨bounds, hb, rfl⟩ := Option.map_eq_some_iff.mp h
  obtain ⟨front, back, hsplit, -⟩ := List.lookup_eq_some_iff.mp hb
  have hmem : (u.toLower (unmarked c), bounds) ∈ charClasses := by
    rw [hsplit]
    exact List.mem_append_right _ List.mem_cons_self
  have ha : 'a'.toNat = 97 := rfl
  have hz : 'z'.toNat = 122 := rfl
  intro e he
  simp only [charClasses, List.mem_cons, List.not_mem_nil, or_false, Prod.mk.injEq] at hmem
  rcases hmem with ⟨-, rfl⟩ | ⟨-, rfl⟩ | ⟨-, rfl⟩ | ⟨-, rfl⟩ | ⟨-, rfl⟩ | ⟨-, rfl⟩ | ⟨-, rfl⟩ |
      ⟨-, rfl⟩ <;>
  · simp [ha, hz] at he
    refine ⟨by omega, fun d hd => ?_⟩
    unfold upper at hd
    rw [ha, hz] at hd
    simp [ha, hz]
    split_ifs at hd <;> omega

theorem mem_ignoreCase {u : Unicode} {strings : Finset (List Nat)} (h : AreBasic strings)
    {t : List Nat} : t ∈ ignoreCase u strings ↔
      ∃ c, Basic c ∧ [c] ∈ strings ∧ (t = [u.toUpper c] ∨ t = [u.toLower c]) := by
  unfold ignoreCase
  rw [Finset.mem_biUnion]
  constructor
  · rintro ⟨s, hs, ht⟩
    obtain ⟨c, hc, rfl⟩ := h s hs
    exact ⟨c, hc, hs, by simpa using ht⟩
  · rintro ⟨c, -, hs, ht⟩
    exact ⟨[c], hs, by simpa using ht⟩

theorem namedClass_of_lt (u : Unicode) {c : Nat} (h : c < 0x80) : namedClass u [c] = none :=
  if_neg (by rw [isControl_of_lt h]; exact Bool.false_ne_true)

theorem namedClass_of_marked (u : Unicode) {d : Nat} (h : d < 0x100) :
    namedClass u [control ||| d] = (charClass u (control ||| d)).map (control ||| d, ·) :=
  if_pos (marked_spec d h).1

theorem caseless_alter {u : Unicode} (hu : u.Ascii) (hm : u.Marks) {range range' : CharacterRange}
    (hs : AreBasic range.strings) (h : alter u (.letters range) = some (.letters range')) :
    range'.Caseless := by
  obtain ⟨e, he, h⟩ := Option.bind_eq_some_iff.mp h
  split at h
  · exact absurd h.symm (Option.some_ne_none _)
  rename_i hnone
  obtain rfl := Term.letters.inj (Option.some.inj h)
  have hstrings : ∀ t, t ∈ e.strings ↔ ∃ s ∈ ignoreCase u range.strings,
      (∃ c, namedClass u s = some c ∧ t ∈ singles c.2) ∨ (namedClass u s = none ∧ t = s) := by
    intro t
    unfold expandClasses at he
    dsimp only at he
    split at he
    · exact absurd he.symm (Option.some_ne_none _)
    · obtain rfl := Option.some.inj he
      rw [Finset.mem_biUnion]
      refine exists_congr fun s => and_congr_right fun _ => ?_
      cases namedClass u s with
      | none => simp
      | some c => simp
  intro t ht
  obtain ⟨s, hcase, ht⟩ := (hstrings t).mp ht
  obtain ⟨c, hc, hin, hs'⟩ := (mem_ignoreCase hs).mp hcase
  rcases hc with hc | ⟨d, hd, rfl⟩
  · -- an ASCII character names no class, and its cases are both there
    rw [hu.toUpper c hc, hu.toLower c hc] at hs'
    obtain ⟨k, rfl, hk⟩ : ∃ k, s = [k] ∧ (k = upper c ∨ k = lower c) := by
      rcases hs' with rfl | rfl
      · exact ⟨_, rfl, Or.inl rfl⟩
      · exact ⟨_, rfl, Or.inr rfl⟩
    have hupper := upper_eq_of_case hk
    have hklt : k < 0x80 := lt_of_upper_eq hupper hc
    rw [namedClass_of_lt u hklt] at ht
    obtain rfl : t = [k] := by simpa using ht
    refine ⟨k, Nat.lt_trans hklt (by decide), rfl, fun d hd => (hstrings _).mpr ?_⟩
    have hd' : upper d = upper c := hd.trans hupper
    refine ⟨[d], (mem_ignoreCase hs).mpr ⟨c, Or.inl hc, hin, ?_⟩,
      Or.inr ⟨namedClass_of_lt u (lt_of_upper_eq hd' hc), rfl⟩⟩
    rw [hu.toUpper c hc, hu.toLower c hc]
    simpa using (eq_upper_or_eq_lower c d).mpr hd'
  · -- a marked one names a class, or it is not allowed
    rw [hm.toUpper d hd, hm.toLower d hd, or_self] at hs'
    subst hs'
    rcases ht with ⟨k, hk, ht⟩ | ⟨hk, rfl⟩
    · obtain ⟨a, ha, rfl⟩ := Finset.mem_image.mp ht
      have hclass : charClass u (control ||| d) = some k.2 := by
        obtain ⟨s, hs, rfl⟩ :=
          Option.map_eq_some_iff.mp ((namedClass_of_marked u hd).symm.trans hk)
        exact hs
      obtain ⟨hlt, hclosed⟩ := charClass_closed hclass a ha
      refine ⟨a, hlt, rfl, fun b hb => (hstrings _).mpr ⟨_, hcase, Or.inl ⟨k, hk, ?_⟩⟩⟩
      exact Finset.mem_image_of_mem _ (hclosed b hb)
    · refine absurd ⟨_, (hstrings _).mpr ⟨_, hcase, Or.inr ⟨hk, rfl⟩⟩, ?_⟩ hnone
      rw [List.any_cons, (marked_spec d hd).1]
      rfl

theorem caseless_lexTerms {u : Unicode} (hu : u.Ascii) (hm : u.Marks) (fuel : Nat)
    {input : List Nat} (h : ∀ c ∈ input, Basic c) {ts : List Term}
    (hts : lexTerms u fuel input = some ts) : ∀ r, .letters r ∈ ts → r.Caseless := by
  induction fuel generalizing input ts with
  | zero => exact absurd hts.symm (Option.some_ne_none ts)
  | succ fuel ih =>
    obtain ⟨a, ha, hts⟩ := Option.bind_eq_some_iff.mp hts
    obtain ⟨t, rest⟩ := a
    cases t with
    | none =>
      obtain rfl := Option.some.inj hts
      exact fun r hr => absurd hr List.not_mem_nil
    | some t =>
      obtain ⟨t', ht', hts⟩ := Option.bind_eq_some_iff.mp hts
      obtain ⟨ts', hts', hts⟩ := Option.bind_eq_some_iff.mp hts
      obtain rfl := Option.some.inj hts
      obtain ⟨hletters, hrest⟩ := lexed_doLex h ha
      intro r hr
      rcases List.mem_cons.mp hr with rfl | hr
      · cases t with
        | letters range => exact caseless_alter hu hm (hletters range rfl) ht'
        | _ => exact Term.noConfusion (Option.some.inj ht')
      · exact ih hrest hts' r hr

end Lexer

/-! ## Texts -/

theorem map_textWord {s t : List UInt8} (h : folded s = folded t) :
    (textWord s).map caseless = (textWord t).map caseless := by
  have hbytes : ∀ w : List UInt8, (w.map byte).map caseless = folded w := fun w => List.map_map
  unfold textWord
  rw [List.map_cons, List.map_cons, List.map_append, List.map_append, hbytes, hbytes, h]

theorem Reads.caseless {u : Unicode} (hu : u.Ascii) (hm : u.Marks) {pattern : List UInt8}
    (h : ∀ b ∈ pattern, b.toNat < 0x80) {tree : Alternative} (hr : Reads u pattern tree) :
    ∀ r, .letters r ∈ tree.terms → r.Caseless := by
  obtain ⟨ucs4, hucs4, hlex⟩ := hr
  obtain rfl := Option.some.inj ((fromLocal_ascii h).symm.trans hucs4)
  refine Lexer.caseless_lexTerms hu hm _ (fun c hc => ?_) hlex
  obtain ⟨b, hb, rfl⟩ := List.mem_map.mp hc
  exact Or.inl (h b hb)

/-- No ASCII pattern that compiles tells texts apart that differ in the case of letters
only. -/
theorem matchesText_of_folded [StdPartition Nat] {u : Unicode} (hu : u.Ascii) (hm : u.Marks)
    {pattern : List UInt8} (h : ∀ b ∈ pattern, b.toNat < 0x80) {sc : Scanner}
    (hsc : compileRegexp u pattern = some sc) {mem mem' : Memory} {p p' n n' : Nat}
    (htext : folded (Scanner.textAt mem p n) = folded (Scanner.textAt mem' p' n')) :
    sc.matchesText mem p n = sc.matchesText mem' p' n' := by
  obtain ⟨tree, m, hr, -⟩ := compileRegexp_eq_some hsc
  refine Bool.eq_iff_iff.mpr ?_
  rw [matchesText_of_reads hsc hr, matchesText_of_reads hsc hr]
  exact (tree.saturated (hr.caseless hu hm h)).infix_iff (map_textWord htext)

theorem ascii_marks : Unicode.ascii.Marks where
  toUpper d _ := by
    have hle : Lexer.control ≤ Lexer.control ||| d := Nat.left_le_or
    exact if_neg fun h => absurd (Nat.le_trans hle h.2) (by decide)
  toLower d _ := by
    have hle : Lexer.control ≤ Lexer.control ||| d := Nat.left_le_or
    exact if_neg fun h => absurd (Nat.le_trans hle h.2) (by decide)

theorem matchesText_of_folded_tv : ∃ sc, compileRegexp .ascii (quote [0x54, 0x56]) = some sc ∧
    sc.matchesText (fun i => [0x54, 0x56].getD i 0) 0 2 =
      sc.matchesText (fun i => [0x74, 0x76].getD i 0) 0 2 := by
  have hlt : ∀ b ∈ ([0x54, 0x56] : List UInt8), b.toNat < 0x80 := by simp
  obtain ⟨sc, hsc⟩ := compiles_quote ascii_laws hlt (by simp)
  exact ⟨sc, hsc, matchesText_of_folded ascii_laws ascii_marks (lt_of_mem_quote hlt) hsc
    (by decide)⟩

end Pire
end MediaServer
