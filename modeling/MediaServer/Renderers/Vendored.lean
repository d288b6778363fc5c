/-
The Pire that the program is built with, behind the lookups.

`vendored` compiles a pattern and runs the scanner over the text in memory, as
`CompileRegexp` and `Matches` do.  On patterns of plain characters it does what
`Pire.plain` says (`tryPattern_vendored`), so that a lookup by headers finds the
same with either (`findHeaders_congr`).
-/
import MediaServer.Pire.Literal
import MediaServer.Renderers.Matching

namespace MediaServer
namespace Renderers

open Text Neptune Search
open MediaServer.Pire.Literal (upper folded special quote)

namespace Pire

/-- The bytes of a string. -/
def bytes (s : Str) : List UInt8 := s.map fun c => UInt8.ofNat c.toNat

/-- Memory with a text at its start. -/
def holding (s : Str) : MediaServer.Pire.Memory := fun i => (bytes s).getD i 0

/-- `CompileRegexp` and `Matches` -/
def vendored [MediaServer.Pire.StdPartition Nat] (u : MediaServer.Pire.Unicode) : Pire where
  Scanner := MediaServer.Pire.Scanner
  compileRegexp pattern := MediaServer.Pire.compileRegexp u (bytes pattern)
  matchesText scanner text := scanner.matchesText (holding text) 0 text.length

/-- One byte for each character. -/
def IsBytes (s : Str) : Prop := ∀ c ∈ s, c.toNat < 256

theorem textAt_holding (s : Str) :
    MediaServer.Pire.Scanner.textAt (holding s) 0 s.length = bytes s := by
  have hlen : (bytes s).length = s.length := List.length_map _
  unfold MediaServer.Pire.Scanner.textAt
  refine List.ext_getElem (by rw [List.length_map, List.length_range, hlen]) fun i h1 h2 => ?_
  rw [List.getElem_map, List.getElem_range, Nat.zero_add]
  show (bytes s).getD i 0 = _
  rw [List.getD_eq_getElem?_getD, List.getElem?_eq_getElem h2, Option.getD_some]

theorem occursIn_iff (pattern text : Str) : occursIn pattern text = true ↔ pattern <:+: text := by
  induction text with
  | nil => exact decide_eq_true_iff.trans List.infix_nil.symm
  | cons c text ih =>
    rw [occursIn, Bool.or_eq_true, ih, List.isPrefixOf_iff_prefix, List.infix_cons_iff]

/-! ## Characters -/

theorem toNat_uppercase (c : Char) : (uppercase c).toNat = upper c.toNat := by
  unfold uppercase Char.toUpper upper
  have hiff : ('a'.val ≤ c.val ∧ c.val ≤ 'z'.val) ↔ 'a'.toNat ≤ c.toNat ∧ c.toNat ≤ 'z'.toNat :=
    Iff.rfl
  by_cases h : 'a'.val ≤ c.val ∧ c.val ≤ 'z'.val
  · rw [dif_pos h, if_pos (hiff.mp h)]
    show (c.val + ('A'.val - 'a'.val)).toNat = c.val.toNat - 32
    have hle : 'a'.toNat ≤ c.val.toNat := h.1
    have ha : 'a'.toNat = 97 := rfl
    have hlt := c.val.toNat_lt
    have hd : ('A'.val - 'a'.val).toNat = 2 ^ 32 - 32 := rfl
    rw [UInt32.toNat_add, hd]
    omega
  · rw [dif_neg h, if_neg fun h' => h (hiff.mpr h')]

theorem toNat_ofNat {c : Char} (h : c.toNat < 256) : (UInt8.ofNat c.toNat).toNat = c.toNat :=
  UInt8.toNat_ofNat_of_lt h

theorem lt_of_isPlain {c : Char} (h : isPlain c = true) : c.toNat < 0x80 := by
  have hle : ∀ {a : UInt32}, a.toNat < 0x80 → c.val ≤ a → c.toNat < 0x80 :=
    fun ha hc => Nat.lt_of_le_of_lt (UInt32.le_iff_toNat_le.mp hc) ha
  have hupper : c.isUpper = true → c.toNat < 0x80 := fun hc =>
    have hbounds : c.val ≥ 'A'.val ∧ c.val ≤ 'Z'.val := of_decide_eq_true hc
    hle (by decide) hbounds.2
  have hlower : c.isLower = true → c.toNat < 0x80 := fun hc =>
    have hbound : decide (c.val ≤ 'z'.val) = true := (Bool.and_eq_true_iff.mp hc).2
    hle (by decide) (of_decide_eq_true hbound)
  have hdigit : c.isDigit = true → c.toNat < 0x80 := fun hc =>
    have hbound : decide (c.val ≤ '9'.val) = true := (Bool.and_eq_true_iff.mp hc).2
    hle (by decide) (of_decide_eq_true hbound)
  simp only [isPlain, Bool.or_eq_true, decide_eq_true_eq] at h
  rcases h with (((h | h) | h) | h) | h
  · rcases Bool.or_eq_true_iff.mp h with h | h
    · exact (Bool.or_eq_true_iff.mp h).elim hupper hlower
    · exact hdigit h
  all_goals
    rw [h]
    decide

theorem notMem_special_of_isPlain {c : Char} (h : isPlain c = true) : c.toNat ∉ special := by
  have key : ∀ n < 0x80, isPlain (Char.ofNat n) = true → n ∉ special := by decide
  exact key c.toNat (lt_of_isPlain h) (by rwa [Char.ofNat_toNat])

theorem folded_bytes {s : Str} (h : IsBytes s) :
    folded (bytes s) = (s.map uppercase).map Char.toNat := by
  unfold folded bytes
  rw [List.map_map, List.map_map]
  refine List.map_congr_left fun c hc => ?_
  show upper (UInt8.ofNat c.toNat).toNat = (uppercase c).toNat
  rw [toNat_ofNat (h c hc), toNat_uppercase]

theorem infix_map_toNat {s t : Str} : s.map Char.toNat <:+: t.map Char.toNat ↔ s <:+: t := by
  constructor
  · intro h
    obtain ⟨w, hw, heq⟩ := List.infix_map_iff.mp h
    rwa [List.map_injective_iff.mpr (fun a b hab => Char.toNat_inj.mp hab) heq]
  · exact fun h => h.map Char.toNat

/-! ## Plain patterns -/

/-- A plain pattern that is not too long to be determined. -/
structure IsShort (pattern : Str) : Prop where
  plain : pattern.all isPlain = true
  length : pattern.length < 100000

theorem matches_vendored [MediaServer.Pire.StdPartition Nat] {u : MediaServer.Pire.Unicode}
    (hu : u.Ascii) {pattern : Str} (h : IsShort pattern) :
    ∃ scanner, (vendored u).compileRegexp pattern = some scanner ∧ ∀ text, IsBytes text →
      (vendored u).matchesText scanner text = plain.matchesText pattern text := by
  have hplain : ∀ c ∈ pattern, isPlain c = true := List.all_eq_true.mp h.plain
  have hbytes : IsBytes pattern := fun c hc =>
    Nat.lt_trans (lt_of_isPlain (hplain c hc)) (by decide)
  have hascii : ∀ b ∈ bytes pattern, b.toNat < 0x80 := by
    intro b hb
    obtain ⟨c, hc, rfl⟩ := List.mem_map.mp hb
    rw [toNat_ofNat (hbytes c hc)]
    exact lt_of_isPlain (hplain c hc)
  have hquote : quote (bytes pattern) = bytes pattern := by
    refine MediaServer.Pire.Literal.quote_eq_self fun b hb => ?_
    obtain ⟨c, hc, rfl⟩ := List.mem_map.mp hb
    rw [toNat_ofNat (hbytes c hc)]
    exact notMem_special_of_isPlain (hplain c hc)
  have hlen : (bytes pattern).length < 100000 := (List.length_map _).trans_lt h.length
  obtain ⟨sc, hsc⟩ := MediaServer.Pire.Literal.compiles_quote hu hascii hlen
  have hcompile : MediaServer.Pire.compileRegexp u (bytes pattern) = some sc := by rwa [← hquote]
  refine ⟨sc, hcompile, fun text htext => ?_⟩
  refine Bool.eq_iff_iff.mpr (Iff.trans
    (MediaServer.Pire.Literal.matchesText_quote hu hascii hsc (holding text) 0 text.length) ?_)
  rw [textAt_holding, folded_bytes hbytes, folded_bytes htext, infix_map_toNat]
  exact (occursIn_iff _ _).symm

theorem tryPattern_vendored [MediaServer.Pire.StdPartition Nat] {u : MediaServer.Pire.Unicode}
    (hu : u.Ascii) {pattern text : Str} (h : IsShort pattern) (htext : IsBytes text) :
    RendererManager.tryPattern (vendored u) pattern text =
      RendererManager.tryPattern plain pattern text := by
  obtain ⟨scanner, hscanner, hmatch⟩ := matches_vendored hu h
  have hplain : plain.compileRegexp pattern = some pattern := if_pos h.plain
  unfold RendererManager.tryPattern
  rw [hscanner, hplain]
  exact congrArg Except.ok (hmatch text htext)

end Pire

/-! ## Lookups -/

theorem Check.tryAll_congr {a b : Pire} {cs : List Check}
    (h : ∀ c ∈ cs, RendererManager.tryPattern a c.pattern c.text =
      RendererManager.tryPattern b c.pattern c.text) : tryAll a cs = tryAll b cs := by
  induction cs with
  | nil => rfl
  | cons c cs ih =>
    rw [tryAll, tryAll, h c List.mem_cons_self, ih fun d hd => h d (List.mem_cons_of_mem c hd)]

namespace RendererManager

theorem findCandidate_congr {a b : Pire} {value : Option Str} {candidates : List (Ptr Renderer)}
    (h : ∀ c ∈ checks value (candidates.map Ptr.object),
      tryPattern a c.pattern c.text = tryPattern b c.pattern c.text) :
    findCandidate a value candidates = findCandidate b value candidates := by
  induction candidates with
  | nil => rfl
  | cons candidate candidates ih =>
    have htest : candidate.object.test a value = candidate.object.test b value :=
      Check.tryAll_congr fun c hc => h c (List.mem_append_left _ hc)
    have hrest := ih fun c hc => h c (List.mem_append_right _ hc)
    rw [findCandidate_eq_findM?, findCandidate_eq_findM?] at hrest ⊢
    rw [findM?_cons, findM?_cons, tryRenderer_eq, tryRenderer_eq, htest, hrest]

/-- A lookup depends on what Pire makes of the checks, and on nothing else of it. -/
theorem findHeaders_congr {a b : Pire} {rm : RendererManager} {headers : Headers}
    (h : ∀ c ∈ checks (userAgentValue headers) (rm.renderers.map Ptr.object),
      tryPattern a c.pattern c.text = tryPattern b c.pattern c.text) :
    rm.findHeaders a headers = rm.findHeaders b headers := by
  unfold findHeaders
  rw [findCandidate_congr h]

/-- With plain patterns in the configurations, the Pire that the program is built with
finds for a request what case-insensitive search finds. -/
theorem findHeaders_vendored [MediaServer.Pire.StdPartition Nat] {u : MediaServer.Pire.Unicode}
    (hu : u.Ascii) (rm : RendererManager) (headers : Headers)
    (h : ∀ c ∈ checks (userAgentValue headers) (rm.renderers.map Ptr.object),
      Pire.IsShort c.pattern ∧ Pire.IsBytes c.text) :
    rm.findHeaders (.vendored u) headers = rm.findHeaders .plain headers :=
  findHeaders_congr fun c hc => Pire.tryPattern_vendored hu (h c hc).1 (h c hc).2

def bravia : Renderer where
  name := "Bravia".toList
  priority := none
  userAgent := some ⟨some "bravia".toList, [⟨"X-AV-Client-Info".toList, "Sony".toList⟩]⟩

theorem isShort_bravia {value : Str} (h : Pire.IsBytes value) :
    ∀ c ∈ checks (some value) [bravia], Pire.IsShort c.pattern ∧ Pire.IsBytes c.text := by
  intro c hc
  change c ∈ [⟨"bravia".toList, value⟩, ⟨"X-AV-Client-Info".toList, "Sony".toList⟩] at hc
  have hbravia : Pire.IsShort "bravia".toList := ⟨by decide, by decide⟩
  rcases List.mem_cons.mp hc with rfl | hc
  · exact ⟨hbravia, h⟩
  · rw [List.mem_singleton.mp hc]
    exact ⟨⟨by decide, by decide⟩, by simp [Pire.IsBytes]⟩

theorem findHeaders_vendored_bravia :
    ({ new [] with renderers := [⟨0, bravia⟩] } : RendererManager).findHeaders
        (.vendored .ascii) [⟨"USER-AGENT".toList, "BRAVIA 2015".toList⟩] =
      ({ new [] with renderers := [⟨0, bravia⟩] } : RendererManager).findHeaders .plain
        [⟨"USER-AGENT".toList, "BRAVIA 2015".toList⟩] :=
  findHeaders_vendored MediaServer.Pire.Literal.ascii_laws _ _
    (isShort_bravia (show Pire.IsBytes "BRAVIA 2015".toList by simp [Pire.IsBytes]))

end RendererManager
end Renderers
end MediaServer
