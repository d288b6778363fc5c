/-
HTTP header lists: `NPT_HttpHeaders`.

`parse` is the loop of `NPT_HttpHeaders::Parse` over the lines it reads, with
the header that is still pending because the next line may continue it.  The
loop's limit on the length of a line is left aside.

`HeaderLine` is what a name and a value have to satisfy to survive a round trip:
both stay on one line, and the name has no colon and does not look like a
continuation.  `parse_lines` is that round trip for a list of headers of any
length.  The values come back trimmed, which changes nothing in a `FieldText`.
-/
import Mathlib.Data.List.DropRight
import MediaServer.Text.Lines
import MediaServer.Neptune.Strings

namespace MediaServer
namespace Neptune

open Text

structure Header where
  name : Str
  value : Str
  deriving DecidableEq

/-- `NPT_HttpHeaders`, in list order. -/
abbrev Headers := List Header

namespace Headers

/-- `NPT_HttpHeaders::GetHeader`, which returns null when no name matches. -/
def getHeader (headers : Headers) (name : Str) : Option Header :=
  headers.find? fun header => compare true header.name name == 0

def addHeader (headers : Headers) (name value : Str) : Headers := headers ++ [⟨name, value⟩]

/-! ## Parsing -/

def whitespace (c : Char) : Bool := c = '\r' || c = '\n' || c = '\t' || c = ' '

def isBlank (c : Char) : Bool := c = ' ' || c = '\t'

def trim (s : Str) : Str := (s.dropWhile whitespace).rdropWhile whitespace

/-- The pending header added to the list, with its value trimmed. -/
def flush : Option Header → Headers
  | some header => [{ header with value := trim header.value }]
  | none => []

/-- The header that a line starts, if its syntax is valid: there is a colon, and
something before it. -/
def start (line : Str) : Option Header :=
  let colonIndex := (cString line).findIdx (· = ':')
  if colonIndex < 1 ∨ (cString line).length ≤ colonIndex then none
  else some
    { name := line.take colonIndex
      value := cString ((line.drop (colonIndex + 1)).dropWhile isBlank) }

/-- `NPT_HttpHeaders::Parse` over the lines read, with the pending header. -/
def parseFrom : Option Header → List Str → Headers
  | pending, [] => flush pending
  | pending, [] :: _ => flush pending
  | some header, (c :: line) :: lines =>
    if isBlank c then parseFrom (some { header with value := header.value ++ line }) lines
    else flush (some header) ++ parseFrom (start (c :: line)) lines
  | none, (c :: line) :: lines => parseFrom (start (c :: line)) lines

def parse (lines : List Str) : Headers := parseFrom none lines

end Headers

/-! ## Writing -/

structure OneLine (s : Str) : Prop where
  cr : '\r' ∉ s
  lf : '\n' ∉ s
  nul : '\x00' ∉ s

/-- Text on one line that trimming leaves as it is. -/
structure FieldText (s : Str) : Prop extends OneLine s where
  head : ∀ c ∈ s.head?, Headers.isBlank c = false
  last : ∀ c ∈ s.getLast?, Headers.isBlank c = false

/-- A name that the reader of a line finds again. -/
structure HeaderName (name : Str) : Prop extends OneLine name where
  nonempty : name ≠ []
  colon : ':' ∉ name
  head : ∀ c ∈ name.head?, Headers.isBlank c = false

structure HeaderLine (header : Header) : Prop where
  name : HeaderName header.name
  value : OneLine header.value

instance (s : Str) : Decidable (OneLine s) :=
  decidable_of_iff ('\r' ∉ s ∧ '\n' ∉ s ∧ '\x00' ∉ s)
    ⟨fun ⟨h₁, h₂, h₃⟩ => ⟨h₁, h₂, h₃⟩, fun h => ⟨h.1, h.2, h.3⟩⟩

instance (s : Str) : Decidable (FieldText s) :=
  decidable_of_iff (OneLine s ∧ s.head?.any Headers.isBlank = false ∧
      s.getLast?.any Headers.isBlank = false)
    ⟨fun ⟨h₁, h₂, h₃⟩ => ⟨h₁, (Option.any_eq_false _ _).mp h₂, (Option.any_eq_false _ _).mp h₃⟩,
    fun h => ⟨h.1, (Option.any_eq_false _ _).mpr h.2, (Option.any_eq_false _ _).mpr h.3⟩⟩

instance (s : Str) : Decidable (HeaderName s) :=
  decidable_of_iff (OneLine s ∧ s ≠ [] ∧ ':' ∉ s ∧ s.head?.any Headers.isBlank = false)
    ⟨fun ⟨h₁, h₂, h₃, h₄⟩ => ⟨h₁, h₂, h₃, (Option.any_eq_false _ _).mp h₄⟩,
    fun h => ⟨h.1, h.2, h.3, (Option.any_eq_false _ _).mpr h.4⟩⟩

theorem OneLine.append {s t : Str} (hs : OneLine s) (ht : OneLine t) : OneLine (s ++ t) where
  cr := by simp [hs.cr, ht.cr]
  lf := by simp [hs.lf, ht.lf]
  nul := by simp [hs.nul, ht.nul]

theorem FieldText.append {s t : Str} (hs : FieldText s) (ht : FieldText t) :
    FieldText (s ++ t) where
  toOneLine := hs.toOneLine.append ht.toOneLine
  head c hc := by
    rw [List.head?_append, Option.mem_def, Option.or_eq_some_iff] at hc
    rcases hc with hc | ⟨-, hc⟩
    · exact hs.head c hc
    · exact ht.head c hc
  last c hc := by
    rw [List.getLast?_append, Option.mem_def, Option.or_eq_some_iff] at hc
    rcases hc with hc | ⟨-, hc⟩
    · exact ht.last c hc
    · exact hs.last c hc

namespace Header

def line (header : Header) : Str := header.name ++ [':', ' '] ++ header.value

/-- A label and a value written one after the other are the line of a header. -/
theorem line_append (label : Str) (header : Header) (h : label = header.name ++ [':', ' '])
    (text : Str) : label ++ (header.value ++ text) = header.line ++ text := by
  simp only [h, line, List.append_assoc]

def trimmed (header : Header) : Header := { header with value := Headers.trim header.value }

end Header

theorem HeaderLine.line {header : Header} (h : HeaderLine header) : OneLine header.line :=
  (h.name.toOneLine.append (by decide)).append h.value

theorem FieldText.trim_eq {s : Str} (h : FieldText s) : Headers.trim s = s := by
  have hblank {c : Char} (hc : c ∈ s) : Headers.whitespace c = Headers.isBlank c := by
    have hcr : c ≠ '\r' := fun e => h.cr (e ▸ hc)
    have hlf : c ≠ '\n' := fun e => h.lf (e ▸ hc)
    simp [Headers.whitespace, Headers.isBlank, hcr, hlf, Bool.or_comm]
  have hl : s.dropWhile Headers.whitespace = s := by
    cases s with
    | nil => rfl
    | cons c s =>
      rw [List.dropWhile_cons, hblank List.mem_cons_self, h.head c rfl,
        if_neg Bool.false_ne_true]
  rw [Headers.trim, hl, List.rdropWhile_eq_self_iff]
  intro hne
  rw [hblank (List.getLast_mem hne),
    h.last _ (List.getLast?_eq_getLast_of_ne_nil hne ▸ rfl)]
  exact Bool.false_ne_true

namespace Headers

/-- Trimming does not notice the blanks that were skipped after the colon. -/
theorem trim_dropWhile_isBlank (s : Str) : trim (s.dropWhile isBlank) = trim s := by
  unfold trim
  congr 1
  induction s with
  | nil => rfl
  | cons c s ih =>
    by_cases hc : isBlank c = true
    · have hw : whitespace c = true := by
        simp only [isBlank, Bool.or_eq_true] at hc
        simp only [whitespace, Bool.or_eq_true]
        rcases hc with h | h
        · exact Or.inr h
        · exact Or.inl (Or.inr h)
      rw [List.dropWhile_cons, if_pos hc, ih, List.dropWhile_cons, if_pos hw]
    · rw [List.dropWhile_cons, if_neg hc]

theorem start_line {header : Header} (h : HeaderLine header) :
    start header.line = some { header with value := header.value.dropWhile isBlank } := by
  have hidx : header.line.findIdx (· = ':') = header.name.length := by
    rw [Header.line, List.append_assoc, List.findIdx_append]
    have hnone : header.name.findIdx (fun c => decide (c = ':')) = header.name.length := by
      refine List.findIdx_eq_length_of_false fun c hc => ?_
      have hne : c ≠ ':' := fun e => h.name.colon (e ▸ hc)
      simpa using hne
    rw [hnone, if_neg (Nat.lt_irrefl _)]
    simp [List.findIdx_cons]
  have hpos : 0 < header.name.length := List.length_pos_of_ne_nil h.name.nonempty
  have hlen : header.line.length = header.name.length + (2 + header.value.length) := by
    simp [Header.line, Nat.add_assoc, Nat.add_comm 2]
  have htake : header.line.take header.name.length = header.name := by
    rw [Header.line, List.append_assoc, List.take_left]
  have hdrop : header.line.drop (header.name.length + 1) = ' ' :: header.value := by
    rw [Header.line, List.append_assoc, ← List.drop_drop, List.drop_left]
    rfl
  have hnul : '\x00' ∉ header.value.dropWhile isBlank := fun hm =>
    h.value.nul (List.dropWhile_sublist _ |>.mem hm)
  rw [start]
  simp only [cString_eq_self h.line.nul, hidx]
  rw [if_neg (by omega), htake, hdrop, List.dropWhile_cons, if_pos (by decide),
    cString_eq_self hnul]

/-- Lines written from headers give these headers back with their values
trimmed, up to the empty line. -/
theorem parseFrom_lines {headers : Headers} (h : ∀ header ∈ headers, HeaderLine header)
    (pending : Option Header) (rest : List Str) :
    parseFrom pending (headers.map Header.line ++ [] :: rest) =
      flush pending ++ headers.map Header.trimmed := by
  induction headers generalizing pending with
  | nil => cases pending <;> simp [parseFrom]
  | cons header headers ih =>
    have hheader := h header List.mem_cons_self
    have hflush : flush (some { header with value := header.value.dropWhile isBlank }) =
        [header.trimmed] := by
      simp only [flush, trim_dropWhile_isBlank]
      rfl
    have ih' := ih (fun header' hh => h header' (List.mem_cons_of_mem header hh))
      (some { header with value := header.value.dropWhile isBlank })
    rw [hflush] at ih'
    -- The line starts with the name's first character, which is not a blank.
    obtain ⟨c, name, hname⟩ : ∃ c name, header.name = c :: name :=
      List.exists_cons_of_ne_nil hheader.name.nonempty
    have hc : isBlank c = false := hheader.name.head c (by rw [hname]; rfl)
    have hline : header.line = c :: (name ++ [':', ' '] ++ header.value) := by
      rw [Header.line, hname]
      rfl
    have hstart := start_line hheader
    rw [hline] at hstart
    rw [List.map_cons, List.cons_append, hline]
    cases pending with
    | none => rw [parseFrom, hstart, ih']; rfl
    | some p =>
      rw [parseFrom, hc, if_neg Bool.false_ne_true, hstart, ih']
      rfl

theorem parse_lines {headers : Headers} (h : ∀ header ∈ headers, HeaderLine header) :
    parse (headers.map Header.line ++ [[]]) = headers.map Header.trimmed :=
  parseFrom_lines h none []

end Headers

/-! ## Messages -/

/-- A start line, header lines and the empty line that ends them. -/
def messageLines (startLine : Str) (headers : Headers) : List Str :=
  startLine :: (headers.map Header.line ++ [[]])

def message (startLine : Str) (headers : Headers) : Str :=
  (messageLines startLine headers).flatMap (· ++ crlf)

theorem message_eq (startLine : Str) (headers : Headers) :
    message startLine headers =
      startLine ++ crlf ++ (headers.flatMap fun header => header.line ++ crlf) ++ crlf := by
  rw [message, messageLines, List.flatMap_cons, List.flatMap_append, List.flatMap_map,
    ← List.append_assoc]
  rfl

theorem splitCRLF_message {startLine : Str} (hs : '\r' ∉ startLine) {headers : Headers}
    (h : ∀ header ∈ headers, HeaderLine header) :
    splitCRLF (message startLine headers) = (messageLines startLine headers, []) := by
  refine splitCRLF_lines fun l hl => ?_
  rcases List.mem_cons.mp hl with rfl | hl
  · exact hs
  · rcases List.mem_append.mp hl with hl | hl
    · obtain ⟨header, hh, rfl⟩ := List.mem_map.mp hl
      exact (h header hh).line.cr
    · rw [List.mem_singleton.mp hl]
      exact List.not_mem_nil

theorem head?_splitCRLF_message {startLine : Str} (hs : '\r' ∉ startLine) (headers : Headers) :
    (splitCRLF (message startLine headers)).1.head? = some startLine := by
  rw [message, messageLines, List.flatMap_cons, splitCRLF_line hs]
  rfl

/-- Whatever the other headers are, a header on one line is a line of the message. -/
theorem line_mem_splitCRLF (startLine : Str) {headers : Headers} {header : Header}
    (h : header ∈ headers) (hline : '\r' ∉ header.line) :
    header.line ∈ (splitCRLF (message startLine headers)).1 :=
  mem_splitCRLF hline (List.mem_cons_of_mem _ (List.mem_append_left _ (List.mem_map_of_mem h)))

def headersOf (text : Str) : Headers := Headers.parse (splitCRLF text).1.tail

def field (text name : Str) : Option Str := ((headersOf text).getHeader name).map Header.value

theorem headersOf_message {startLine : Str} (hs : '\r' ∉ startLine) {headers : Headers}
    (h : ∀ header ∈ headers, HeaderLine header) :
    headersOf (message startLine headers) = headers.map Header.trimmed := by
  rw [headersOf, splitCRLF_message hs h]
  exact Headers.parse_lines h

/-- A header of a message is found again, with its value trimmed. -/
theorem field_message {startLine : Str} (hs : '\r' ∉ startLine) {headers : Headers}
    (h : ∀ header ∈ headers, HeaderLine header) (name : Str) :
    field (message startLine headers) name =
      (headers.getHeader name).map fun header => Headers.trim header.value := by
  rw [field, headersOf_message hs h, Headers.getHeader, List.find?_map, Option.map_map]
  rfl

theorem field_message_of_fieldText {startLine : Str} (hs : '\r' ∉ startLine) {headers : Headers}
    (h : ∀ header ∈ headers, HeaderName header.name ∧ FieldText header.value) (name : Str) :
    field (message startLine headers) name = (headers.getHeader name).map Header.value := by
  have hline : ∀ header ∈ headers, HeaderLine header := fun header hh =>
    ⟨(h header hh).1, (h header hh).2.toOneLine⟩
  rw [field_message hs hline]
  exact Option.map_congr fun header hh =>
    (h header (List.mem_of_find?_eq_some hh)).2.trim_eq

end Neptune
end MediaServer
