/-
UTF-8 as patterns are read in it and texts matched in it.

Characters are read back as they were written (`readRune_putRune`,
`fromLocal_toLocals`), and a dot stands for exactly the sequences of bytes that
are read as one character (`lang_appendDot`).  Both sides take up to four bytes
for a character and accept forms that are longer than needed.
-/
import MediaServer.Pire.Strings

namespace MediaServer
namespace Pire

namespace Utf8

/-! ## Reading and writing -/

/-- The table of `utf8_rune_len` -/
def runeLenTable : List Nat :=
  [1, 1, 1, 1, 1, 1, 1, 1, 1, 1, 1, 1, 1, 1, 1, 1,
    0, 0, 0, 0, 0, 0, 0, 0, 2, 2, 2, 2, 3, 3, 4, 0]

def runeLen (p : UInt8) : Nat := runeLenTable.getD (p.toNat >>> 3) 0

/-- `utf8_leadbyte_mask` -/
def leadByteMask (len : Nat) : Nat := [0, 0, 0x1F, 0x0F, 0x07].getD len 0

/-- The bytes behind the first one. -/
def readTail : Nat → Nat → List UInt8 → Option (Nat × List UInt8)
  | 0, rune, s => some (rune, s)
  | _ + 1, _, [] => none
  | n + 1, rune, ch :: s =>
    if ch.toNat &&& 0xC0 ≠ 0x80 then none
    else readTail n ((rune <<< 6) ||| (ch.toNat &&& 0x3F)) s

/-- `utf8_read_rune`, and what is left. -/
def readRune : List UInt8 → Option (Nat × List UInt8)
  | [] => none
  | p :: s =>
    let len := runeLen p
    if s.length + 1 < len then none
    else if len = 0 then none
    else if len = 1 then some (p.toNat, s)
    else readTail (len - 1) (p.toNat &&& leadByteMask len) s

def tailByte (n : Nat) : UInt8 := UInt8.ofNat (0x80 ||| (n &&& 0x3F))

/-- `utf8_put_rune` -/
def putRune (rune : Nat) : List UInt8 :=
  if rune < 0x80 then [UInt8.ofNat rune]
  else if rune < 0x800 then [UInt8.ofNat (0xC0 ||| (rune >>> 6)), tailByte rune]
  else if rune < 0x10000 then
    [UInt8.ofNat (0xE0 ||| (rune >>> 12)), tailByte (rune >>> 6), tailByte rune]
  else [UInt8.ofNat (0xF0 ||| ((rune >>> 18) &&& 0x07)), tailByte (rune >>> 12),
    tailByte (rune >>> 6), tailByte rune]

/-- `FromLocal` of a whole string, with fuel for its length. -/
def readRunes : Nat → List UInt8 → Option (List Nat)
  | _, [] => some []
  | 0, _ :: _ => none
  | fuel + 1, p :: s => (readRune (p :: s)).bind fun r => (readRunes fuel r.2).map (r.1 :: ·)

/-- `FromLocal`: nothing where it throws. -/
def fromLocal (s : List UInt8) : Option (List Nat) := readRunes s.length s

/-- `utf8_rune_len_by_ucs` -/
def runeLenByUcs (rune : Nat) : Nat :=
  if rune < 0x80 then 1 else if rune < 0x800 then 2 else if rune < 0x10000 then 3
  else if rune < 0x200000 then 4 else if rune < 0x4000000 then 5 else 6

/-- `ToLocal`: what is written of a string of blanks. -/
def toLocal (rune : Nat) : List UInt8 :=
  putRune rune ++ List.replicate (runeLenByUcs rune - (putRune rune).length) 0x20

/-- The bytes that go on with a character. -/
def IsTail (b : UInt8) : Prop := 0x80 ≤ b.toNat ∧ b.toNat < 0xC0

instance (b : UInt8) : Decidable (IsTail b) := inferInstanceAs (Decidable (_ ∧ _))

set_option maxRecDepth 4000 in
theorem and_C0 (b : UInt8) : b.toNat &&& 0xC0 = 0x80 ↔ IsTail b := by
  have h : ∀ n < 256, (n &&& 0xC0 = 0x80 ↔ 0x80 ≤ n ∧ n < 0xC0) := by decide
  exact h b.toNat b.toNat_lt

set_option maxRecDepth 4000 in
theorem runeLen_eq (b : UInt8) : runeLen b =
    if b.toNat < 0x80 then 1 else if b.toNat < 0xC0 then 0 else if b.toNat < 0xE0 then 2
    else if b.toNat < 0xF0 then 3 else if b.toNat < 0xF8 then 4 else 0 := by
  have h : ∀ n < 256, runeLenTable.getD (n >>> 3) 0 =
      if n < 0x80 then 1 else if n < 0xC0 then 0 else if n < 0xE0 then 2
      else if n < 0xF0 then 3 else if n < 0xF8 then 4 else 0 := by decide
  exact h b.toNat b.toNat_lt

theorem tailByte_toNat (n : Nat) : (tailByte n).toNat = 0x80 + n % 0x40 := by
  unfold tailByte
  have hor : 0x80 ||| (n % 0x40) = 0x80 + n % 0x40 :=
    (Nat.shiftLeft_add_eq_or_of_lt (i := 6) (Nat.mod_lt n (by decide)) 2).symm
  rw [show (0x3F : Nat) = 2 ^ 6 - 1 from rfl, Nat.and_two_pow_sub_one_eq_mod,
    show (2 : Nat) ^ 6 = 0x40 from rfl, hor, UInt8.toNat_ofNat']
  have hlt := Nat.mod_lt n (show 0 < 0x40 by decide)
  omega

/-- One byte is read behind the first. -/
theorem readTail_cons {n : Nat} {rune : Nat} {b : UInt8} {s : List UInt8} (hb : IsTail b) :
    readTail (n + 1) rune (b :: s) = readTail n (rune * 0x40 + b.toNat % 0x40) s := by
  have hadd : (rune <<< 6) ||| (b.toNat &&& 0x3F) = rune * 0x40 + b.toNat % 0x40 := by
    rw [show (0x3F : Nat) = 2 ^ 6 - 1 from rfl, Nat.and_two_pow_sub_one_eq_mod,
      ← Nat.shiftLeft_add_eq_or_of_lt (Nat.mod_lt _ (by decide)), Nat.shiftLeft_eq]
  rw [readTail, if_neg (not_not.mpr ((and_C0 b).mpr hb)), hadd]

theorem readTail_tailByte {n : Nat} {rune : Nat} (r : Nat) {s : List UInt8} :
    readTail (n + 1) rune (tailByte r :: s) = readTail n (rune * 0x40 + r % 0x40) s := by
  have hlt := Nat.mod_lt r (show 0 < 0x40 by decide)
  rw [readTail_cons (by unfold IsTail; rw [tailByte_toNat]; omega), tailByte_toNat]
  congr 2
  omega

/-- The first byte of a character of more than one. -/
theorem readRune_lead {b : UInt8} {s : List UInt8} {len low : Nat} (hlen : runeLen b = len)
    (hlen' : 2 ≤ len) (hs : len ≤ s.length + 1) (hlow : b.toNat &&& leadByteMask len = low) :
    readRune (b :: s) = readTail (len - 1) low s := by
  unfold readRune
  simp only [hlen]
  rw [if_neg (Nat.not_lt.mpr hs), if_neg (by omega), if_neg (by omega), hlow]

/-- A character that is written is read back. -/
theorem readRune_putRune {rune : Nat} (h : rune < 0x200000) (s : List UInt8) :
    readRune (putRune rune ++ s) = some (rune, s) := by
  have hlead : ∀ lead n, lead = 0xC0 ∧ n < 0x20 ∨ lead = 0xE0 ∧ n < 0x10 ∨ lead = 0xF0 ∧ n < 8 →
      (UInt8.ofNat (lead ||| n)).toNat = lead + n := by
    intro lead n hn
    have hcases : ∀ n < 0x20, (n < 0x20 → (0xC0 ||| n) % 256 = 0xC0 + n) ∧
        (n < 0x10 → (0xE0 ||| n) % 256 = 0xE0 + n) ∧ (n < 8 → (0xF0 ||| n) % 256 = 0xF0 + n) := by
      decide
    rw [UInt8.toNat_ofNat']
    rcases hn with ⟨rfl, hn⟩ | ⟨rfl, hn⟩ | ⟨rfl, hn⟩
    · exact (hcases n hn).1 hn
    · exact (hcases n (by omega)).2.1 hn
    · exact (hcases n (by omega)).2.2 hn
  have hmask : ∀ n < 0x20, (n < 0x20 → (0xC0 + n) &&& 0x1F = n) ∧
      (n < 0x10 → (0xE0 + n) &&& 0x0F = n) ∧ (n < 8 → (0xF0 + n) &&& 0x07 = n) := by
    decide
  unfold putRune
  by_cases h1 : rune < 0x80
  · rw [if_pos h1]
    have hb : (UInt8.ofNat rune).toNat = rune := by
      rw [UInt8.toNat_ofNat']
      omega
    have hlen : runeLen (UInt8.ofNat rune) = 1 := by
      rw [runeLen_eq, hb, if_pos h1]
    show readRune (UInt8.ofNat rune :: s) = _
    unfold readRune
    simp only [hlen, hb]
    rw [if_neg (by omega), if_neg (by omega), if_pos trivial]
  · rw [if_neg h1]
    by_cases h2 : rune < 0x800
    · rw [if_pos h2]
      have hn : rune >>> 6 < 0x20 := by
        rw [Nat.shiftRight_eq_div_pow]
        omega
      have hb := hlead 0xC0 (rune >>> 6) (Or.inl ⟨rfl, hn⟩)
      have hlen : runeLen (UInt8.ofNat (0xC0 ||| (rune >>> 6))) = 2 := by
        rw [runeLen_eq, hb]
        split_ifs <;> omega
      have hlow : (UInt8.ofNat (0xC0 ||| (rune >>> 6))).toNat &&& leadByteMask 2 = rune >>> 6 := by
        rw [hb]
        exact (hmask _ hn).1 hn
      show readRune (_ :: tailByte rune :: s) = _
      rw [readRune_lead hlen (Nat.le_refl 2) (by simp) hlow, readTail_tailByte, readTail,
        Nat.shiftRight_eq_div_pow]
      congr 2
      omega
    · rw [if_neg h2]
      by_cases h3 : rune < 0x10000
      · rw [if_pos h3]
        have hn : rune >>> 12 < 0x10 := by
          rw [Nat.shiftRight_eq_div_pow]
          omega
        have hb := hlead 0xE0 (rune >>> 12) (Or.inr (Or.inl ⟨rfl, hn⟩))
        have hlen : runeLen (UInt8.ofNat (0xE0 ||| (rune >>> 12))) = 3 := by
          rw [runeLen_eq, hb]
          split_ifs <;> omega
        have hlow : (UInt8.ofNat (0xE0 ||| (rune >>> 12))).toNat &&& leadByteMask 3 =
            rune >>> 12 := by
          rw [hb]
          exact (hmask _ (by omega)).2.1 hn
        show readRune (_ :: tailByte (rune >>> 6) :: tailByte rune :: s) = _
        rw [readRune_lead hlen (by decide) (by simp) hlow, readTail_tailByte, readTail_tailByte,
          readTail, Nat.shiftRight_eq_div_pow, Nat.shiftRight_eq_div_pow]
        congr 2
        omega
      · rw [if_neg h3]
        have hn : (rune >>> 18) &&& 0x07 = rune / 0x40000 := by
          rw [show (0x07 : Nat) = 2 ^ 3 - 1 from rfl, Nat.and_two_pow_sub_one_eq_mod,
            Nat.shiftRight_eq_div_pow]
          omega
        have hlt : rune / 0x40000 < 8 := by omega
        rw [hn]
        have hb := hlead 0xF0 (rune / 0x40000) (Or.inr (Or.inr ⟨rfl, hlt⟩))
        have hlen : runeLen (UInt8.ofNat (0xF0 ||| (rune / 0x40000))) = 4 := by
          rw [runeLen_eq, hb]
          split_ifs <;> omega
        have hlow : (UInt8.ofNat (0xF0 ||| (rune / 0x40000))).toNat &&& leadByteMask 4 =
            rune / 0x40000 := by
          rw [hb]
          exact (hmask _ (by omega)).2.2 hlt
        show readRune (_ :: tailByte (rune >>> 12) :: tailByte (rune >>> 6) ::
          tailByte rune :: s) = _
        rw [readRune_lead hlen (by decide) (by simp) hlow, readTail_tailByte, readTail_tailByte,
          readTail_tailByte, readTail, Nat.shiftRight_eq_div_pow, Nat.shiftRight_eq_div_pow]
        congr 2
        omega

theorem putRune_ne_nil (rune : Nat) : putRune rune ≠ [] := by
  unfold putRune
  split_ifs <;> exact List.cons_ne_nil _ _

theorem toLocal_eq {rune : Nat} (h : rune < 0x200000) : toLocal rune = putRune rune := by
  have hlen : runeLenByUcs rune = (putRune rune).length := by
    unfold runeLenByUcs putRune
    rw [if_pos h]
    split_ifs <;> rfl
  unfold toLocal
  rw [hlen, Nat.sub_self]
  exact List.append_nil _

theorem toLocal_ne_nil (rune : Nat) : toLocal rune ≠ [] :=
  List.append_ne_nil_of_left_ne_nil (putRune_ne_nil rune) _

theorem length_readTail {n rune : Nat} {s : List UInt8} {r : Nat × List UInt8}
    (h : readTail n rune s = some r) : r.2.length ≤ s.length := by
  induction s generalizing n rune with
  | nil =>
    cases n with
    | zero => exact Nat.le_of_eq (congrArg (·.2.length) (Option.some.inj h)).symm
    | succ n => exact absurd h.symm (Option.some_ne_none r)
  | cons b s ih =>
    cases n with
    | zero => exact Nat.le_of_eq (congrArg (·.2.length) (Option.some.inj h)).symm
    | succ n =>
      unfold readTail at h
      split at h
      · exact absurd h.symm (Option.some_ne_none r)
      · exact Nat.le_succ_of_le (ih h)

/-- A character takes a byte or more. -/
theorem length_readRune {p : UInt8} {s : List UInt8} {r : Nat × List UInt8}
    (h : readRune (p :: s) = some r) : r.2.length ≤ s.length := by
  unfold readRune at h
  dsimp only at h
  split at h
  · exact absurd h.symm (Option.some_ne_none r)
  split at h
  · exact absurd h.symm (Option.some_ne_none r)
  split at h
  · exact Nat.le_of_eq (congrArg (·.2.length) (Option.some.inj h)).symm
  · exact length_readTail h

theorem readRunes_fuel (f g : Nat) {s : List UInt8} (hf : s.length ≤ f) (hg : s.length ≤ g) :
    readRunes f s = readRunes g s := by
  induction f generalizing g s with
  | zero =>
    obtain rfl := List.eq_nil_of_length_eq_zero (Nat.le_zero.mp hf)
    cases g <;> rfl
  | succ f ih =>
    cases s with
    | nil => cases g <;> rfl
    | cons p s =>
      rw [List.length_cons] at hf hg
      obtain ⟨g, rfl⟩ : ∃ n, g = n + 1 := ⟨g - 1, by omega⟩
      unfold readRunes
      cases hread : readRune (p :: s) with
      | none => rfl
      | some r =>
        have hlen := length_readRune hread
        rw [Option.bind_some, Option.bind_some, ih g (by omega) (by omega)]

theorem fromLocal_cons (p : UInt8) (s : List UInt8) : fromLocal (p :: s) =
    (readRune (p :: s)).bind fun r => (fromLocal r.2).map (r.1 :: ·) := by
  show (readRune (p :: s)).bind _ = _
  cases hread : readRune (p :: s) with
  | none => rfl
  | some r =>
    rw [Option.bind_some, Option.bind_some, fromLocal,
      readRunes_fuel s.length r.2.length (length_readRune hread) (Nat.le_refl _)]

theorem fromLocal_toLocal_append {r : Nat} (h : r < 0x200000) (rest : List UInt8) :
    fromLocal (toLocal r ++ rest) = (fromLocal rest).map (r :: ·) := by
  have hread := readRune_putRune h rest
  rw [toLocal_eq h]
  obtain ⟨b, bs, hput⟩ := List.exists_cons_of_ne_nil (putRune_ne_nil r)
  rw [hput, List.cons_append] at hread ⊢
  rw [fromLocal_cons, hread, Option.bind_some]

theorem fromLocal_toLocals {runes : List Nat} (h : ∀ r ∈ runes, r < 0x200000) :
    fromLocal (runes.flatMap toLocal) = some runes := by
  induction runes with
  | nil => rfl
  | cons r runes ih =>
    rw [List.flatMap_cons, fromLocal_toLocal_append (h r List.mem_cons_self),
      ih fun q hq => h q (List.mem_cons_of_mem r hq), Option.map_some]

/-- A string that is written is read back, whatever is behind it. -/
theorem fromLocal_flatMap_append {runes : List Nat} (h : ∀ r ∈ runes, r < 0x200000)
    (rest : List UInt8) :
    fromLocal (runes.flatMap toLocal ++ rest) = (fromLocal rest).map (runes ++ ·) := by
  induction runes with
  | nil => exact (Option.map_id' (x := fromLocal rest)).symm
  | cons r runes ih =>
    rw [List.flatMap_cons, List.append_assoc, fromLocal_toLocal_append (h r List.mem_cons_self),
      ih fun q hq => h q (List.mem_cons_of_mem r hq), Option.map_map]
    rfl

theorem fromLocal_flatMap_append_four :
    fromLocal ([0x41, 0x44F, 0x20AC, 0x1F600].flatMap toLocal ++ [0xC3]) =
      (fromLocal [0xC3]).map ([0x41, 0x44F, 0x20AC, 0x1F600] ++ ·) :=
  fromLocal_flatMap_append (by decide) [0xC3]

/-- What is read as one character. -/
theorem fromLocal_eq_singleton {w : List UInt8} {r : Nat} :
    fromLocal w = some [r] ↔ readRune w = some (r, []) := by
  cases w with
  | nil =>
    refine iff_of_false (fun h => ?_) fun h => Option.some_ne_none _ h.symm
    exact List.cons_ne_nil r [] (Option.some.inj h).symm
  | cons p s =>
    have hnil : ∀ t, fromLocal t = some [] → t = [] := by
      intro t ht
      cases t with
      | nil => rfl
      | cons q t =>
        rw [fromLocal_cons] at ht
        obtain ⟨a, -, ht⟩ := Option.bind_eq_some_iff.mp ht
        obtain ⟨l, -, hl⟩ := Option.map_eq_some_iff.mp ht
        exact absurd hl (List.cons_ne_nil a.1 l)
    rw [fromLocal_cons]
    constructor
    · intro h
      obtain ⟨⟨a, t⟩, hread, h⟩ := Option.bind_eq_some_iff.mp h
      obtain ⟨l, hl, hcons⟩ := Option.map_eq_some_iff.mp h
      obtain ⟨rfl, rfl⟩ := List.cons.inj hcons
      rw [hread, hnil t hl]
    · intro h
      rw [h]
      rfl

/-- A string is read as one character if it is a first byte and as many more as
that asks for. -/
theorem readTail_whole (tails : List UInt8) (n : Nat) (rune : Nat) :
    (∃ r, readTail n rune tails = some (r, [])) ↔ tails.length = n ∧ ∀ b ∈ tails, IsTail b := by
  induction tails generalizing n rune with
  | nil =>
    cases n with
    | zero => exact iff_of_true ⟨rune, rfl⟩ ⟨rfl, fun b hb => absurd hb List.not_mem_nil⟩
    | succ n =>
      refine iff_of_false ?_ (fun h => absurd h.1 (Nat.succ_ne_zero n).symm)
      rintro ⟨r, hr⟩
      exact absurd hr.symm (Option.some_ne_none _)
  | cons b tails ih =>
    cases n with
    | zero =>
      refine iff_of_false ?_ (fun h => absurd h.1 (Nat.succ_ne_zero _))
      rintro ⟨r, hr⟩
      exact absurd (congrArg Prod.snd (Option.some.inj hr)) (List.cons_ne_nil b tails)
    | succ n =>
      by_cases hb : IsTail b
      · rw [readTail_cons hb, ih, List.length_cons, List.forall_mem_cons]
        simp only [hb, true_and, Nat.succ_inj]
      · refine iff_of_false ?_ (fun h => hb (h.2 b List.mem_cons_self))
        rintro ⟨r, hr⟩
        rw [readTail, if_pos (fun h => hb ((and_C0 b).mp h))] at hr
        exact absurd hr.symm (Option.some_ne_none _)

theorem readRune_whole (w : List UInt8) : (∃ r, readRune w = some (r, [])) ↔
    ∃ b tails, w = b :: tails ∧ runeLen b = tails.length + 1 ∧ ∀ c ∈ tails, IsTail c := by
  cases w with
  | nil =>
    refine iff_of_false ?_ ?_
    · rintro ⟨r, hr⟩
      exact absurd hr.symm (Option.some_ne_none _)
    · rintro ⟨b, tails, hw, -⟩
      exact absurd hw (List.cons_ne_nil b tails).symm
  | cons b tails =>
    have hright : (∃ c cs, b :: tails = c :: cs ∧ runeLen c = cs.length + 1 ∧ ∀ d ∈ cs, IsTail d) ↔
        runeLen b = tails.length + 1 ∧ ∀ d ∈ tails, IsTail d := by
      constructor
      · rintro ⟨c, cs, hw, h⟩
        obtain ⟨rfl, rfl⟩ := List.cons.inj hw
        exact h
      · exact fun h => ⟨b, tails, rfl, h⟩
    rw [hright]
    rcases Nat.lt_or_ge (runeLen b) 2 with hlt | hge
    · have hone : readRune (b :: tails) =
          if runeLen b = 0 then none else some (b.toNat, tails) := by
        unfold readRune
        simp only
        rw [if_neg (show ¬ tails.length + 1 < runeLen b by omega)]
        split
        · rfl
        · rw [if_pos (by omega)]
      rw [hone]
      constructor
      · rintro ⟨r, hr⟩
        split at hr
        · exact absurd hr.symm (Option.some_ne_none _)
        · obtain rfl : tails = [] := congrArg Prod.snd (Option.some.inj hr)
          exact ⟨show runeLen b = 1 by omega, fun d hd => absurd hd List.not_mem_nil⟩
      · rintro ⟨hlen, -⟩
        have hnil : tails = [] := List.eq_nil_of_length_eq_zero (by omega)
        rw [if_neg (by omega), hnil]
        exact ⟨b.toNat, rfl⟩
    · by_cases hs : runeLen b ≤ tails.length + 1
      · rw [readRune_lead rfl hge hs rfl, readTail_whole]
        constructor
        · exact fun h => ⟨by omega, h.2⟩
        · exact fun h => ⟨by omega, h.2⟩
      · refine iff_of_false ?_ (fun h => hs (by omega))
        rintro ⟨r, hr⟩
        unfold readRune at hr
        simp only [if_pos (Nat.lt_of_not_le hs)] at hr
        exact absurd hr.symm (Option.some_ne_none _)

end Utf8

/-! ## Steps put in one after the other -/

namespace Fsm

/-- What a row of `Connect` leaves as it is, and the steps that it adds. -/
structure Adds (j k : Fsm) (E : Nat → Letter → Nat → Prop) : Prop where
  size : k.size = j.size
  initial : k.initial = j.initial
  final : k.final = j.final
  letters : k.letters = j.letters
  valid : j.Valid → k.Valid
  targets : ∀ s d t, s < j.size → (t ∈ k.targets s d ↔ t ∈ j.targets s d ∨ E s d t)

theorem Adds.connectWhere {j : Fsm} (hj : j.letters = Partition.empty) (P : Nat → Bool) {t : Nat}
    (ht : t < j.size) (c : Letter) :
    Adds j (j.connectWhere P t c) (fun s d u => P s = true ∧ d = c ∧ u = t) where
  size := size_connectWhere _ _ _ _
  initial := rfl
  final := rfl
  letters := rfl
  valid h := h.connectWhere P ht (free_of_letters_empty hj c)
  targets _ _ _ hs := mem_targets_connectWhere (free_of_letters_empty hj c) hs

theorem Adds.congr {j k : Fsm} {E E' : Nat → Letter → Nat → Prop} (h : Adds j k E)
    (hE : ∀ s d t, E s d t ↔ E' s d t) : Adds j k E' :=
  ⟨h.size, h.initial, h.final, h.letters, h.valid, fun s d t hs => by
    rw [h.targets s d t hs, hE]⟩

theorem Adds.trans {j k l : Fsm} {E E' : Nat → Letter → Nat → Prop} (h : Adds j k E)
    (h' : Adds k l E') : Adds j l (fun s d t => E s d t ∨ E' s d t) where
  size := h'.size.trans h.size
  initial := h'.initial.trans h.initial
  final := h'.final.trans h.final
  letters := h'.letters.trans h.letters
  valid hv := h'.valid (h.valid hv)
  targets s d t hs := by
    rw [h'.targets s d t (by rw [h.size]; exact hs), h.targets s d t hs, or_assoc]

theorem Adds.foldl {A : Type} (items : List A) {f : Fsm → A → Fsm} {j : Fsm}
    {E : A → Nat → Letter → Nat → Prop}
    (hf : ∀ k a, k.size = j.size → k.final = j.final → k.letters = j.letters →
      a ∈ items → Adds k (f k a) (E a)) :
    Adds j (items.foldl f j) (fun s d t => ∃ a ∈ items, E a s d t) := by
  induction items generalizing j with
  | nil =>
    refine ⟨rfl, rfl, rfl, rfl, id, fun s d t _ => ?_⟩
    simp only [List.foldl_nil, List.not_mem_nil, false_and, exists_false, or_false]
  | cons a items ih =>
    have hone := hf j a rfl rfl rfl List.mem_cons_self
    have hrest := ih (j := f j a) fun k b hsize hfinal hletters hb =>
      hf k b (hsize.trans hone.size) (hfinal.trans hone.final) (hletters.trans hone.letters)
        (List.mem_cons_of_mem a hb)
    refine (hone.trans hrest).congr fun s d t => ?_
    simp only [List.exists_mem_cons_iff]

theorem isAlternative_foldl {A : Type} {f : Fsm → A → Fsm}
    (hf : ∀ k a, (f k a).isAlternative = false) {items : List A} (hne : items ≠ []) (j : Fsm) :
    (items.foldl f j).isAlternative = false := by
  rw [← List.dropLast_append_getLast hne, List.foldl_append]
  exact hf _ _

end Fsm

namespace Utf8

open Automata Computability

/-! ## A dot -/

/-- The letters from `a` up to `b`. -/
def letters (r : Nat × Nat) : List Letter := 
  (List.range' r.1 (r.2 - r.1)).map fun n => ⟨n % 264, Nat.mod_lt n (by decide)⟩

def first : List (Nat × Nat) := [(0x00, 0x80), (0xC0, 0xE0), (0xE0, 0xF0), (0xF0, 0xF8)]

def next : Nat × Nat := (0x80, 0xC0)

/-- `Utf8::AppendDot`: the steps on first bytes, -/
def dotStart (m : Fsm) : Fsm :=
  (List.range 4).foldl (fun j i => (letters (first.getD i (0, 0))).foldl
    (fun j c => j.connectFinal (j.size - i - 1) c) j) (m.grow 4)

/-- those on the bytes behind them, -/
def dotTable (m : Fsm) : Fsm :=
  (List.range 3).foldl (fun j i => (letters next).foldl
    (fun j c => j.connect (m.size + i) (m.size + i + 1) c) j) (dotStart m)

/-- and the new end. -/
def endDot (d : Fsm) : Fsm := { d with final := {d.size - 1}, determined := false }

def appendDot (m : Fsm) : Fsm := endDot (dotTable m)

theorem determined_endDot (d : Fsm) : (endDot d).determined = false := rfl

theorem mem_letters {r : Nat × Nat} (hr : r.1 ≤ r.2) (hr' : r.2 ≤ 256) {o : Option Input} :
    label o ∈ letters r ↔ ∃ b, o = some (byte b) ∧ r.1 ≤ b.toNat ∧ b.toNat < r.2 := by
  unfold letters
  rw [List.mem_map]
  constructor
  · rintro ⟨n, hn, hlabel⟩
    rw [List.mem_range'_1] at hn
    have hlt : n < 256 := by omega
    have hn' : (UInt8.ofNat n).toNat = n := by
      rw [UInt8.toNat_ofNat']
      omega
    refine ⟨UInt8.ofNat n, label_inj (hlabel.symm.trans (Fin.ext ?_)), by omega, by omega⟩
    show n % 264 = (UInt8.ofNat n).toNat
    omega
  · rintro ⟨b, rfl, h1, h2⟩
    refine ⟨b.toNat, List.mem_range'_1.mpr ⟨h1, by omega⟩, Fin.ext ?_⟩
    show b.toNat % 264 = b.toNat
    omega

section AppendDot

variable {m : Fsm}

theorem adds_dotStart (hm : m.letters = Partition.empty) : Fsm.Adds (m.grow 4) (dotStart m)
    (fun s d t => ∃ i < 4, s ∈ m.final ∧ d ∈ letters (first.getD i (0, 0)) ∧
      t = m.size + 3 - i) := by
  refine (Fsm.Adds.foldl (List.range 4) (E := fun i s d t =>
    ∃ c ∈ letters (first.getD i (0, 0)), s ∈ m.final ∧ d = c ∧ t = m.size + 3 - i) ?_).congr ?_
  · intro k i hk hfinal hletters hi
    refine Fsm.Adds.foldl _ fun l c hl hfinal' hletters' _ => ?_
    have hl' : l.size = m.size + 4 := hl.trans (hk.trans (Fsm.size_grow m 4))
    refine (Fsm.Adds.connectWhere (hletters'.trans (hletters.trans hm)) _ ?_ c).congr
      fun s d t => ?_
    · omega
    · rw [decide_eq_true_eq, hfinal', hfinal, hl',
        show m.size + 4 - i - 1 = m.size + 3 - i by omega]
      rfl
  · intro s d t
    simp only [List.mem_range]
    constructor
    · rintro ⟨i, hi, c, hc, hs, rfl, ht⟩
      exact ⟨i, hi, hs, hc, ht⟩
    · rintro ⟨i, hi, hs, hd, ht⟩
      exact ⟨i, hi, d, hd, hs, rfl, ht⟩

/-- The steps of a dot behind `m`. -/
def DotStep (m : Fsm) (s : Nat) (d : Letter) (t : Nat) : Prop :=
  (∃ i < 4, s ∈ m.final ∧ d ∈ letters (first.getD i (0, 0)) ∧ t = m.size + 3 - i) ∨
    ∃ i < 3, s = m.size + i ∧ d ∈ letters next ∧ t = m.size + i + 1

theorem adds_dotTable (hm : m.letters = Partition.empty) :
    Fsm.Adds (m.grow 4) (dotTable m) (DotStep m) := by
  have hstart := adds_dotStart hm
  refine hstart.trans ((Fsm.Adds.foldl (List.range 3) (E := fun i s d t =>
    ∃ c ∈ letters next, s = m.size + i ∧ d = c ∧ t = m.size + i + 1) ?_).congr ?_)
  · intro k i hk _ hletters hi
    refine Fsm.Adds.foldl _ fun l c hl _ hletters' _ => ?_
    refine (Fsm.Adds.connectWhere (hletters'.trans (hletters.trans (hstart.letters.trans hm)))
      _ ?_ c).congr fun s d t => by rw [decide_eq_true_eq]
    have hl' : l.size = m.size + 4 :=
      hl.trans (hk.trans (hstart.size.trans (Fsm.size_grow m 4)))
    have hi' := List.mem_range.mp hi
    omega
  · intro s d t
    simp only [List.mem_range]
    constructor
    · rintro ⟨i, hi, c, hc, hs, rfl, ht⟩
      exact ⟨i, hi, hs, hc, ht⟩
    · rintro ⟨i, hi, hs, hd, ht⟩
      exact ⟨i, hi, d, hd, hs, rfl, ht⟩

theorem dotTable_isAlternative (m : Fsm) : (dotTable m).isAlternative = false := by
  unfold dotTable
  refine Fsm.isAlternative_foldl (fun k i => ?_) (List.cons_ne_nil 0 [1, 2]) _
  refine Fsm.isAlternative_foldl (fun k c => rfl) ?_ k
  exact List.ne_nil_of_length_pos (by decide)

section EndDot

variable {d : Fsm}

theorem size_of_adds (hd : Fsm.Adds (m.grow 4) d (DotStep m)) : d.size = m.size + 4 :=
  hd.size.trans (Fsm.size_grow m 4)

theorem mem_final_endDot (hd : Fsm.Adds (m.grow 4) d (DotStep m)) {s : Nat} :
    s ∈ (endDot d).final ↔ s = m.size + 3 := by
  show s ∈ ({d.size - 1} : Finset Nat) ↔ _
  rw [size_of_adds hd, Finset.mem_singleton]
  rfl

/-- Where the new states lead. -/
theorem mem_step_dot (h : m.Valid) (hd : Fsm.Adds (m.grow 4) d (DotStep m)) {i : Nat} (hi : i < 4)
    {o : Option Input} {t : Nat} : t ∈ (endDot d).nfa.step (m.size + i) o ↔
      i < 3 ∧ t = m.size + i + 1 ∧ ∃ b, o = some (byte b) ∧ IsTail b := by
  have hlt : m.size + i < (m.grow 4).size := by
    rw [Fsm.size_grow]
    omega
  rw [Fsm.mem_step]
  show t ∈ d.targets _ _ ↔ _
  rw [hd.targets _ _ _ hlt, Fsm.targets_grow,
    Fsm.targets_of_size_le (Nat.le_add_right _ _)]
  have hnext : label o ∈ letters next ↔ ∃ b, o = some (byte b) ∧ IsTail b :=
    mem_letters (r := next) (by decide) (by decide)
  constructor
  · rintro (ht | ⟨j, -, hf, -⟩ | ⟨j, hj, hs, hd, ht⟩)
    · exact absurd ht (Finset.notMem_empty t)
    · have := h.final_lt _ hf
      omega
    · obtain rfl : i = j := Nat.add_left_cancel hs
      exact ⟨hj, ht, hnext.mp hd⟩
  · rintro ⟨hi', ht, hd⟩
    exact Or.inr (Or.inr ⟨i, hi', rfl, hnext.mpr hd, ht⟩)

/-- From a new state, as many bytes as are missing. -/
theorem acceptsFrom_dot (h : m.Valid) (hd : Fsm.Adds (m.grow 4) d (DotStep m)) {n : Nat}
    (hn : n < 4)
    (x : List Input) : x ∈ acceptsFrom (endDot d).nfa (m.size + (3 - n)) ↔
      ∃ tails : List UInt8, tails.length = n ∧ (∀ b ∈ tails, IsTail b) ∧ x = tails.map byte := by
  induction n generalizing x with
  | zero =>
    have hsink : acceptsFrom (endDot d).nfa (m.size + 3) = 1 := by
      refine acceptsFrom_sink (fun o => Set.eq_empty_of_forall_notMem fun t ht => ?_) ?_
      · exact absurd ((mem_step_dot h hd (by decide)).mp ht).1 (Nat.lt_irrefl 3)
      · exact (mem_final_endDot hd).mpr rfl
    show x ∈ acceptsFrom (endDot d).nfa (m.size + 3) ↔ _
    rw [hsink, Language.mem_one]
    constructor
    · rintro rfl
      exact ⟨[], rfl, fun b hb => absurd hb List.not_mem_nil, rfl⟩
    · rintro ⟨tails, hlen, -, rfl⟩
      rw [List.eq_nil_of_length_eq_zero hlen]
      rfl
  | succ n ih =>
    have hstate : m.size + (3 - (n + 1)) + 1 = m.size + (3 - n) := by omega
    rw [mem_acceptsFrom]
    constructor
    · rintro (⟨-, hf⟩ | ⟨o, t, y, rfl, ho, hy⟩)
      · have hs := (mem_final_endDot hd).mp hf
        omega
      · obtain ⟨-, rfl, b, rfl, hb⟩ := (mem_step_dot h hd (by omega)).mp ho
        rw [hstate] at hy
        obtain ⟨tails, hlen, htails, rfl⟩ := (ih (by omega) y).mp hy
        exact ⟨b :: tails, by rw [List.length_cons, hlen],
          List.forall_mem_cons.mpr ⟨hb, htails⟩, rfl⟩
    · rintro ⟨tails, hlen, htails, rfl⟩
      cases tails with
      | nil => exact absurd hlen (Nat.succ_ne_zero n).symm
      | cons b tails =>
        obtain ⟨hb, htails⟩ := List.forall_mem_cons.mp htails
        have hlen' : tails.length = n := Nat.succ.inj hlen
        refine Or.inr ⟨some (byte b), m.size + (3 - n), tails.map byte, rfl, ?_,
          (ih (by omega) _).mpr ⟨tails, hlen', htails, rfl⟩⟩
        exact (mem_step_dot h hd (by omega)).mpr ⟨by omega, hstate.symm, b, rfl, hb⟩

/-- The first bytes of characters of `i + 1` bytes. -/
theorem mem_first {i : Nat} (hi : i < 4) {o : Option Input} :
    label o ∈ letters (first.getD i (0, 0)) ↔ ∃ b, o = some (byte b) ∧ runeLen b = i + 1 := by
  rw [mem_letters (by revert i; decide) (by revert i; decide)]
  refine exists_congr fun b => and_congr_right fun _ => ?_
  rw [runeLen_eq]
  have hb := b.toNat_lt
  rcases i with _ | _ | _ | _ | i
  · show 0x00 ≤ b.toNat ∧ b.toNat < 0x80 ↔ _
    split_ifs <;> first | omega | exact iff_of_false (by omega) id
  · show 0xC0 ≤ b.toNat ∧ b.toNat < 0xE0 ↔ _
    split_ifs <;> first | omega | exact iff_of_false (by omega) id
  · show 0xE0 ≤ b.toNat ∧ b.toNat < 0xF0 ↔ _
    split_ifs <;> first | omega | exact iff_of_false (by omega) id
  · show 0xF0 ≤ b.toNat ∧ b.toNat < 0xF8 ↔ _
    split_ifs <;> first | omega | exact iff_of_false (by omega) id
  · omega

/-- The bytes of one character. -/
def oneRune : Language Input := Fsm.spelt fun w => ∃ r, readRune w = some (r, [])

theorem lang_endDot (h : m.Valid) (hd : Fsm.Adds (m.grow 4) d (DotStep m)) :
    (endDot d).lang = m.lang * oneRune := by
  let E : Option Input → Nat → Prop :=
    fun o t => ∃ i < 4, (∃ b, o = some (byte b) ∧ runeLen b = i + 1) ∧ t = m.size + (3 - i)
  rw [Fsm.lang_of_exits (j := endDot d) h (E := E) hd.initial ?_ ?_]
  · congr 1
    ext x
    constructor
    · rintro ⟨o, t, y, rfl, ⟨i, hi, ⟨b, rfl, hlen⟩, rfl⟩, hy⟩
      obtain ⟨tails, hlen', htails, rfl⟩ := (acceptsFrom_dot h hd hi y).mp hy
      exact ⟨b :: tails, (readRune_whole _).mpr ⟨b, tails, rfl, by omega, htails⟩, rfl⟩
    · rintro ⟨w, hw, rfl⟩
      obtain ⟨b, tails, rfl, hlen, htails⟩ := (readRune_whole w).mp hw
      have hlt : tails.length < 4 := by
        rw [runeLen_eq] at hlen
        split_ifs at hlen <;> omega
      exact ⟨some (byte b), m.size + (3 - tails.length), tails.map byte, rfl,
        ⟨tails.length, hlt, ⟨b, rfl, hlen⟩, rfl⟩,
        (acceptsFrom_dot h hd hlt _).mpr ⟨tails, rfl, htails, rfl⟩⟩
  · intro s o t hs
    show t ∈ d.targets s (label o) ↔ _
    rw [hd.targets s _ t (by rw [Fsm.size_grow]; omega), Fsm.targets_grow]
    constructor
    · rintro (ht | ⟨i, hi, hf, hl, ht⟩ | ⟨i, hi, hs', -⟩)
      · exact Or.inl ht
      · exact Or.inr ⟨hf, i, hi, (mem_first hi).mp hl, by omega⟩
      · omega
    · rintro (ht | ⟨hf, i, hi, hl, ht⟩)
      · exact Or.inl ht
      · exact Or.inr (Or.inl ⟨i, hi, hf, (mem_first hi).mpr hl, by omega⟩)
  · intro s hs hf
    have hs' := (mem_final_endDot hd).mp hf
    omega

theorem valid_endDot (h : m.Valid) (hd : Fsm.Adds (m.grow 4) d (DotStep m))
    (ha : d.isAlternative = false) : (endDot d).Valid := by
  have hv := hd.valid (h.grow 4)
  refine hv.withEnds ha hv.initial_lt (fun s hs => ?_) false
  have hs' := (mem_final_endDot hd).mp hs
  have hsize := size_of_adds hd
  omega

theorem not_final_endDot (h : m.Valid) (hd : Fsm.Adds (m.grow 4) d (DotStep m)) :
    (endDot d).initial ∉ (endDot d).final := by
  intro hf
  have hi : d.initial = m.size + 3 := (mem_final_endDot hd).mp hf
  have hlt := h.initial_lt
  have hsame : d.initial = m.initial := hd.initial
  omega

theorem letters_endDot (hm : m.letters = Partition.empty)
    (hd : Fsm.Adds (m.grow 4) d (DotStep m)) : (endDot d).letters = Partition.empty :=
  hd.letters.trans hm

end EndDot

theorem appendDot_letters (hm : m.letters = Partition.empty) :
    (appendDot m).letters = Partition.empty := letters_endDot hm (adds_dotTable hm)

theorem valid_appendDot (h : m.Valid) (hm : m.letters = Partition.empty) : (appendDot m).Valid :=
  valid_endDot h (adds_dotTable hm) (dotTable_isAlternative m)

theorem not_final_appendDot (h : m.Valid) (hm : m.letters = Partition.empty) :
    (appendDot m).initial ∉ (appendDot m).final := not_final_endDot h (adds_dotTable hm)

/-- A dot is any sequence of bytes that is read as one character. -/
theorem lang_appendDot (h : m.Valid) (hm : m.letters = Partition.empty) :
    (appendDot m).lang = m.lang * oneRune := lang_endDot h (adds_dotTable hm)

/-- A dot reads the words that `FromLocal` reads as one character. -/
theorem mem_lang_dot_iff (x : List Input) : x ∈ (appendDot Fsm.new).lang ↔
    ∃ w r, fromLocal w = some [r] ∧ x = w.map byte := by
  rw [lang_appendDot Fsm.valid_new rfl, Fsm.lang_new, one_mul]
  constructor
  · rintro ⟨w, ⟨r, hr⟩, rfl⟩
    exact ⟨w, r, fromLocal_eq_singleton.mpr hr, rfl⟩
  · rintro ⟨w, r, hr, rfl⟩
    exact ⟨w, ⟨r, fromLocal_eq_singleton.mp hr⟩, rfl⟩

end AppendDot

end Utf8

end Pire
end MediaServer
