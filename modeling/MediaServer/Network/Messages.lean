/-
The SSDP messages as their readers see them.

`ReadsAs` is what a reader relies on: cut at CRLF, a message is a start line, lines
of the form `name: value` and one empty line at its end, and the lines parse to a
list of headers in which no name occurs twice.  `messages_readAs` says that both
notifications and the reply are such messages, for all values that stay on a line
and have no blanks at their ends.

Which USN a builder writes does not depend on what the values are:
`usn_written`.
-/
import MediaServer.Network.Upnp

namespace MediaServer
namespace Upnp

open Text Neptune

/-! ## What a reader gets -/

def IsHeaderLine (line : Str) : Prop :=
  ∃ name value, line = name ++ ": ".toList ++ value ∧ HeaderName name

/-- No two of the names are the same to `getHeader`. -/
def NamesDiffer (headers : Headers) : Prop :=
  headers.Pairwise fun header header' => compare true header.name header'.name ≠ 0

structure ReadsAs (text startLine : Str) (headers : Headers) : Prop where
  start : startLine ≠ []
  lines : ∃ lines, splitCRLF text = (startLine :: (lines ++ [[]]), []) ∧
    (∀ line ∈ lines, IsHeaderLine line) ∧ Headers.parse (lines ++ [[]]) = headers
  names : NamesDiffer headers

theorem namesDiffer_iff (headers : Headers) :
    NamesDiffer headers ↔
      (headers.map Header.name).Pairwise fun name name' => compare true name name' ≠ 0 := by
  rw [NamesDiffer, List.pairwise_map]

theorem namesDiffer_trimmed {headers : Headers} (h : NamesDiffer headers) :
    NamesDiffer (headers.map Header.trimmed) := by
  rw [namesDiffer_iff] at h ⊢
  rw [List.map_map]
  exact h

theorem readsAs_message {startLine : Str} (hstart : startLine ≠ []) (hcr : '\r' ∉ startLine)
    {headers : Headers} (h : ∀ header ∈ headers, HeaderLine header)
    (hnames : NamesDiffer headers) :
    ReadsAs (message startLine headers) startLine (headers.map Header.trimmed) where
  start := hstart
  lines := by
    refine ⟨headers.map Header.line, splitCRLF_message hcr h, fun line hline => ?_,
      Headers.parse_lines h⟩
    obtain ⟨header, hheader, rfl⟩ := List.mem_map.mp hline
    exact ⟨header.name, header.value, rfl, (h header hheader).name⟩
  names := namesDiffer_trimmed hnames

theorem map_trimmed_eq_self {headers : Headers}
    (h : ∀ header ∈ headers, FieldText header.value) : headers.map Header.trimmed = headers := by
  have htrimmed : ∀ header ∈ headers, header.trimmed = header := by
    intro header hheader
    rw [Header.trimmed, (h header hheader).trim_eq]
  rw [List.map_congr_left htrimmed, List.map_id']

/-- Trimming changes nothing in headers that have no blanks at their ends. -/
theorem readsAs_message_of_fieldText {startLine : Str} (hstart : startLine ≠ [])
    (hcr : '\r' ∉ startLine) {headers : Headers}
    (h : ∀ header ∈ headers, HeaderName header.name ∧ FieldText header.value)
    (hnames : NamesDiffer headers) : ReadsAs (message startLine headers) startLine headers := by
  have hread := readsAs_message hstart hcr
    (fun header hh => ⟨(h header hh).1, (h header hh).2.toOneLine⟩) hnames
  rw [map_trimmed_eq_self fun header hh => (h header hh).2] at hread
  exact hread

/-! ## The three messages -/

section Messages

variable (name udn date target : Str)

theorem namesDiffer_aliveHeaders : NamesDiffer (aliveHeaders name udn target) := by
  rw [namesDiffer_iff]
  show ["HOST".toList, "NT".toList, "NTS".toList, "LOCATION".toList, "USN".toList,
    "CACHE-CONTROL".toList, "SERVER".toList].Pairwise _
  decide

theorem namesDiffer_byebyeHeaders : NamesDiffer (byebyeHeaders udn target) := by
  rw [namesDiffer_iff]
  show ["HOST".toList, "NT".toList, "NTS".toList, "USN".toList].Pairwise _
  decide

theorem namesDiffer_discoveryHeaders :
    NamesDiffer (discoveryHeaders name udn date target) := by
  rw [namesDiffer_iff]
  show ["CACHE-CONTROL".toList, "DATE".toList, "LOCATION".toList, "SERVER".toList, "ST".toList,
    "EXT".toList, "USN".toList, "Content-Length".toList].Pairwise _
  decide

end Messages

/-- A date that is not empty is read back with its suffix.  Of an empty date the
reader gets the suffix alone, without the blank before it. -/
theorem fieldText_dated {date : Str} (hdate : FieldText date) (hne : date ≠ []) :
    FieldText (date ++ " GMT".toList) where
  toOneLine := hdate.toOneLine.append (by decide)
  head c hc := by
    rw [List.head?_append_of_ne_nil date hne] at hc
    exact hdate.head c hc
  last c hc := by
    rw [List.getLast?_append] at hc
    cases hc
    decide

theorem fieldText_discoveryHeaders {name udn date target : Str} (hname : FieldText name)
    (hudn : FieldText udn) (htarget : FieldText target) (hdate : FieldText date)
    (hne : date ≠ []) :
    ∀ header ∈ discoveryHeaders name udn date target, FieldText header.value := by
  have husn := fieldText_usn hudn htarget
  have hdated := fieldText_dated hdate hne
  simp only [discoveryHeaders, List.forall_mem_cons]
  exact ⟨by decide, hdated, by decide, hname, htarget, by decide, husn, by decide,
    List.forall_mem_nil _⟩

/-- Every message is read as the headers that it was written from. -/
theorem messages_readAs {name udn target date : Str} (hname : FieldText name)
    (hudn : FieldText udn) (htarget : FieldText target) (hdate : FieldText date) :
    ReadsAs (buildMsg name udn target alive) "NOTIFY * HTTP/1.1".toList
        (aliveHeaders name udn target) ∧
      ReadsAs (buildMsg name udn target byebye) "NOTIFY * HTTP/1.1".toList
        (byebyeHeaders udn target) ∧
      ReadsAs (discovery name udn date target) "HTTP/1.1 200 OK".toList
        ((discoveryHeaders name udn date target).map Header.trimmed) ∧
      (date ≠ [] → (discoveryHeaders name udn date target).map Header.trimmed =
        discoveryHeaders name udn date target) := by
  refine ⟨?_, ?_, ?_, fun hne => ?_⟩
  · rw [buildMsg_alive]
    exact readsAs_message_of_fieldText (by decide) (by decide)
      (fieldText_aliveHeaders hudn htarget hname) (namesDiffer_aliveHeaders name udn target)
  · rw [buildMsg_byebye]
    exact readsAs_message_of_fieldText (by decide) (by decide)
      (fieldText_byebyeHeaders hudn htarget) (namesDiffer_byebyeHeaders udn target)
  · rw [discovery_eq]
    exact readsAs_message (by decide) (by decide)
      (headerLine_discoveryHeaders hudn htarget hname hdate.toOneLine)
      (namesDiffer_discoveryHeaders name udn date target)
  · exact map_trimmed_eq_self (fieldText_discoveryHeaders hname hudn htarget hdate hne)

theorem messages_readAs_urn :
    ReadsAs (buildMsg "Media::Server".toList "uuid".toList mediaServer alive)
      "NOTIFY * HTTP/1.1".toList (aliveHeaders "Media::Server".toList "uuid".toList mediaServer) :=
  (messages_readAs (by decide) (by decide) (by decide)
    (show FieldText "Thu, 01 Jan 1970 00:00:00".toList by decide)).1

/-! ## The USN in a message -/

/-- The headers are written into `text`, and the only USN among them is `value`. -/
structure WritesUsn (text : Str) (headers : Headers) (value : Str) : Prop where
  text : ∃ startLine, text = message startLine headers
  usn : headers.filter (fun header => header.name = "USN".toList) = [⟨"USN".toList, value⟩]

/-- All builders write one USN for a target, and no other target has it. -/
theorem usn_written (udn : Str) :
    (∀ name date target : Str,
      WritesUsn (buildMsg name udn target alive) (aliveHeaders name udn target)
          (usn udn target) ∧
        WritesUsn (buildMsg name udn target byebye) (byebyeHeaders udn target)
          (usn udn target) ∧
        ∀ (host : Str) (port : Int32),
          WritesUsn (sendReply host port (discovery name udn date target)).payload
            (discoveryHeaders name udn date target) (usn udn target)) ∧
      ∀ target target' : Str, usn udn target = usn udn target' ↔ target = target' := by
  refine ⟨fun name date target => ⟨?_, ?_, fun host port => ?_⟩,
    fun target target' => (usn_injective udn).eq_iff⟩
  · exact ⟨⟨_, buildMsg_alive name udn target⟩, rfl⟩
  · exact ⟨⟨_, buildMsg_byebye name udn target⟩, rfl⟩
  · exact ⟨⟨_, discovery_eq name udn date target⟩, rfl⟩

end Upnp
end MediaServer
