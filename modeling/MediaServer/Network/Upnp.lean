/-
The SSDP messages: the builders and senders of `upnp.cpp`.

Two functions write messages, `buildMsg` the notifications and `discovery` the
text of a search reply.  Each is the text of a start line and a list of headers,
`buildMsg_alive`, `buildMsg_byebye` and `discovery_eq`, and from there on a message
is read through its headers.  Both write the same USN for a target, the UDN alone
for the UDN itself and the UDN with the target behind it for any other.

A sender is modelled by the datagrams it sends.
-/
import Mathlib.Logic.Function.Basic
import MediaServer.Neptune.Time
import MediaServer.Server.MediaServerPP

namespace MediaServer
namespace Upnp

open Text Neptune

def alive : Str := "ssdp:alive".toList

def byebye : Str := "ssdp:byebye".toList

def ipv4UpnpHost : Str := "239.255.255.250".toList

def upnpPort : Nat := 1900

/-! ## Targets -/

def rootDevice : Str := "upnp:rootdevice".toList

def mediaServer : Str := "urn:schemas-upnp-org:device:MediaServer:1".toList

def contentDirectory : Str := "urn:schemas-upnp-org:service:ContentDirectory:1".toList

def connectionManager : Str := "urn:schemas-upnp-org:service:ConnectionManager:1".toList

/-! ## Building messages -/

/-- `std::to_string`. -/
def decimal (n : Nat) : Str := Nat.toDigits 10 n

/-- `Server::buildMsg`, with the name and the UDN that it asks `gMS` for. -/
def buildMsg (name udn nt message : Str) : Str :=
  "NOTIFY * HTTP/1.1".toList ++ crlf ++
  "HOST: ".toList ++ ipv4UpnpHost ++ ":".toList ++ decimal upnpPort ++ crlf ++
  "NT: ".toList ++ nt ++ crlf ++
  "NTS: ".toList ++ message ++ crlf ++
  (if message = alive then
    "LOCATION: http://".toList ++ "192.168.1.103".toList ++ ":".toList ++ "8082".toList ++
      "/description/fetch".toList ++ crlf
  else []) ++
  "USN: ".toList ++ udn ++
  (if nt ≠ udn then "::".toList ++ nt else []) ++
  crlf ++
  (if message = alive then "CACHE-CONTROL: max-age=1800".toList ++ crlf else []) ++
  (if message = alive then "SERVER: ".toList ++ name ++ crlf else []) ++
  crlf

/-- The text that `Server::sendDiscover` builds. -/
def discovery (name udn date st : Str) : Str :=
  let serverHost := "192.168.1.103".toList
  let serverPort := 8082
  let udn := if st = udn then [] else udn ++ "::".toList
  "HTTP/1.1 200 OK".toList ++ crlf ++
  "CACHE-CONTROL: max-age=1200".toList ++ crlf ++
  "DATE: ".toList ++ date ++ " GMT".toList ++ crlf ++
  "LOCATION: http://".toList ++ serverHost ++ ":".toList ++ decimal serverPort ++
    "/description/fetch".toList ++ crlf ++
  "SERVER: ".toList ++ name ++ crlf ++
  "ST: ".toList ++ st ++ crlf ++
  "EXT: ".toList ++ crlf ++
  "USN: ".toList ++ udn ++ st ++ crlf ++
  "Content-Length: 0".toList ++ crlf ++ crlf

/-! ## Sending -/

structure Datagram where
  destination : SocketAddress
  payload : Str

def getUPNPAddress : IpAddress := IpAddress.parse ipv4UpnpHost

def sendMessage (gMS : MediaServerPP) (nt message : Str) : Datagram where
  destination := ⟨getUPNPAddress, UInt32.ofNat upnpPort⟩
  payload := buildMsg gMS.name gMS.udnString nt message

def sendAlive (gMS : MediaServerPP) : List Datagram :=
  [ sendMessage gMS rootDevice alive,
    sendMessage gMS gMS.udnString alive,
    sendMessage gMS mediaServer alive,
    sendMessage gMS contentDirectory alive,
    sendMessage gMS connectionManager alive ]

def sendByeBye (gMS : MediaServerPP) : List Datagram :=
  [ sendMessage gMS rootDevice byebye,
    sendMessage gMS mediaServer byebye,
    sendMessage gMS contentDirectory byebye,
    sendMessage gMS connectionManager byebye ]

/-- `Server::sendReply`.  An `int` becomes a port by conversion to `unsigned int`. -/
def sendReply (host : Str) (port : Int32) (msg : Str) : Datagram where
  destination := ⟨IpAddress.parse host, port.toUInt32⟩
  payload := msg

/-- The date that `Server::sendDiscover` writes.  A time stamp out of range leaves
the date as it was constructed. -/
def dateString (now : TimeStamp) : Str :=
  ((DateTime.fromTimeStamp now).getD DateTime.default).toString

/-- `Server::sendDiscover` at the time `now`. -/
def sendDiscover (gMS : MediaServerPP) (now : TimeStamp) (host : Str) (port : Int32)
    (st : Str) : Datagram :=
  sendReply host port (discovery gMS.name gMS.udnString (dateString now) st)

def announced (gMS : MediaServerPP) : List Str :=
  [rootDevice, gMS.udnString, mediaServer, contentDirectory, connectionManager]

theorem sendAlive_eq (gMS : MediaServerPP) :
    sendAlive gMS = (announced gMS).map fun nt => sendMessage gMS nt alive := rfl

def withdrawn : List Str := [rootDevice, mediaServer, contentDirectory, connectionManager]

theorem sendByeBye_eq (gMS : MediaServerPP) :
    sendByeBye gMS = withdrawn.map fun nt => sendMessage gMS nt byebye := rfl

theorem fieldText_announced (gMS : MediaServerPP) :
    ∀ t ∈ announced gMS, FieldText t := by
  simp only [announced, List.forall_mem_cons]
  exact ⟨by decide, gMS.udn.fieldText_toString, by decide, by decide, by decide, nofun⟩

/-- The UDN is none of the other targets: it is too short or too long. -/
theorem udnString_ne (gMS : MediaServerPP) {t : Str} (h : t.length ≠ 36) :
    gMS.udnString ≠ t := by
  intro heq
  subst heq
  exact h gMS.udn.length_toString

theorem fieldText_udnString (gMS : MediaServerPP) : FieldText gMS.udnString :=
  gMS.udn.fieldText_toString

theorem oneLine_dateString (now : TimeStamp) : OneLine (dateString now) :=
  DateTime.oneLine_toString _

/-! ## Messages as headers -/

/-- The USN of a target. -/
def usn (udn target : Str) : Str := if target = udn then udn else udn ++ "::".toList ++ target

def location : Str := "http://192.168.1.103:8082/description/fetch".toList

def aliveHeaders (name udn nt : Str) : Headers :=
  [ ⟨"HOST".toList, "239.255.255.250:1900".toList⟩,
    ⟨"NT".toList, nt⟩,
    ⟨"NTS".toList, alive⟩,
    ⟨"LOCATION".toList, location⟩,
    ⟨"USN".toList, usn udn nt⟩,
    ⟨"CACHE-CONTROL".toList, "max-age=1800".toList⟩,
    ⟨"SERVER".toList, name⟩ ]

def byebyeHeaders (udn nt : Str) : Headers :=
  [ ⟨"HOST".toList, "239.255.255.250:1900".toList⟩,
    ⟨"NT".toList, nt⟩,
    ⟨"NTS".toList, byebye⟩,
    ⟨"USN".toList, usn udn nt⟩ ]

def discoveryHeaders (name udn date st : Str) : Headers :=
  [ ⟨"CACHE-CONTROL".toList, "max-age=1200".toList⟩,
    ⟨"DATE".toList, date ++ " GMT".toList⟩,
    ⟨"LOCATION".toList, location⟩,
    ⟨"SERVER".toList, name⟩,
    ⟨"ST".toList, st⟩,
    ⟨"EXT".toList, []⟩,
    ⟨"USN".toList, usn udn st⟩,
    ⟨"Content-Length".toList, "0".toList⟩ ]

/-! Both builders write the label of a line, its value in one or more parts, and the
end of the line.  The lemmas below gather the parts of a line that has several. -/

theorem hostLine (text : Str) :
    "HOST: ".toList ++ (ipv4UpnpHost ++ (":".toList ++ (decimal upnpPort ++ text))) =
      (Header.mk "HOST".toList "239.255.255.250:1900".toList).line ++ text := rfl

theorem aliveLocationLine (text : Str) :
    "LOCATION: http://".toList ++ ("192.168.1.103".toList ++ (":".toList ++ ("8082".toList ++
      ("/description/fetch".toList ++ text)))) =
      (Header.mk "LOCATION".toList location).line ++ text := rfl

theorem discoveryLocationLine (text : Str) :
    "LOCATION: http://".toList ++ ("192.168.1.103".toList ++ (":".toList ++ (decimal 8082 ++
      ("/description/fetch".toList ++ text)))) =
      (Header.mk "LOCATION".toList location).line ++ text := rfl

theorem maxAge1800Line (text : Str) :
    "CACHE-CONTROL: max-age=1800".toList ++ text =
      (Header.mk "CACHE-CONTROL".toList "max-age=1800".toList).line ++ text := rfl

theorem maxAge1200Line (text : Str) :
    "CACHE-CONTROL: max-age=1200".toList ++ text =
      (Header.mk "CACHE-CONTROL".toList "max-age=1200".toList).line ++ text := rfl

theorem extLine (text : Str) :
    "EXT: ".toList ++ text = (Header.mk "EXT".toList []).line ++ text := rfl

theorem contentLengthLine (text : Str) :
    "Content-Length: 0".toList ++ text =
      (Header.mk "Content-Length".toList "0".toList).line ++ text := rfl

theorem buildMsgUsnLine (udn nt text : Str) :
    "USN: ".toList ++ (udn ++ ((if nt ≠ udn then "::".toList ++ nt else []) ++ text)) =
      (Header.mk "USN".toList (usn udn nt)).line ++ text := by
  rw [← Header.line_append "USN: ".toList _ rfl, usn]
  by_cases h : nt = udn
  · simp only [h, ne_eq, not_true_eq_false, if_false, if_true, List.nil_append]
  · simp only [h, ne_eq, not_false_eq_true, if_false, if_true, List.append_assoc]

theorem discoveryUsnLine (udn st text : Str) :
    "USN: ".toList ++ ((if st = udn then [] else udn ++ "::".toList) ++ (st ++ text)) =
      (Header.mk "USN".toList (usn udn st)).line ++ text := by
  rw [← Header.line_append "USN: ".toList _ rfl, usn]
  by_cases h : st = udn
  · simp only [h, if_true, List.nil_append]
  · simp only [h, if_false, List.append_assoc]

theorem dateLine (date text : Str) :
    "DATE: ".toList ++ (date ++ (" GMT".toList ++ text)) =
      (Header.mk "DATE".toList (date ++ " GMT".toList)).line ++ text := by
  rw [← List.append_assoc date, ← Header.line_append "DATE: ".toList _ rfl]

theorem buildMsg_alive (name udn nt : Str) :
    buildMsg name udn nt alive =
      message "NOTIFY * HTTP/1.1".toList (aliveHeaders name udn nt) := by
  unfold buildMsg aliveHeaders
  simp only [message_eq, if_true, List.append_assoc, List.flatMap_cons, List.flatMap_nil,
    List.nil_append]
  simp only [hostLine, aliveLocationLine, buildMsgUsnLine, maxAge1800Line,
    Header.line_append "NT: ".toList ⟨"NT".toList, nt⟩ rfl,
    Header.line_append "NTS: ".toList ⟨"NTS".toList, alive⟩ rfl,
    Header.line_append "SERVER: ".toList ⟨"SERVER".toList, name⟩ rfl]

theorem buildMsg_byebye (name udn nt : Str) :
    buildMsg name udn nt byebye =
      message "NOTIFY * HTTP/1.1".toList (byebyeHeaders udn nt) := by
  have hne : byebye ≠ alive := by decide
  unfold buildMsg byebyeHeaders
  simp only [message_eq, if_neg hne, List.append_assoc, List.append_nil, List.flatMap_cons,
    List.flatMap_nil]
  simp only [hostLine, buildMsgUsnLine,
    Header.line_append "NT: ".toList ⟨"NT".toList, nt⟩ rfl,
    Header.line_append "NTS: ".toList ⟨"NTS".toList, byebye⟩ rfl]

theorem discovery_eq (name udn date st : Str) :
    discovery name udn date st =
      message "HTTP/1.1 200 OK".toList (discoveryHeaders name udn date st) := by
  unfold discovery discoveryHeaders
  simp only [message_eq, List.append_assoc, List.flatMap_cons, List.flatMap_nil,
    List.nil_append]
  simp only [maxAge1200Line, dateLine, discoveryLocationLine, extLine, discoveryUsnLine,
    contentLengthLine,
    Header.line_append "SERVER: ".toList ⟨"SERVER".toList, name⟩ rfl,
    Header.line_append "ST: ".toList ⟨"ST".toList, st⟩ rfl]

/-! ## The USN -/

/-- Within one server, a USN belongs to one target. -/
theorem usn_injective (udn : Str) : Function.Injective (usn udn) := by
  have hlonger (t : Str) : udn ≠ udn ++ "::".toList ++ t := fun h => by
    have hlen := congrArg List.length h
    have htwo : "::".toList.length = 2 := rfl
    rw [List.length_append, List.length_append, htwo] at hlen
    omega
  intro t t' h
  unfold usn at h
  split at h
  · split at h
    · rename_i ht ht'
      rw [ht, ht']
    · exact absurd h (hlonger t')
  · split at h
    · exact absurd h.symm (hlonger t)
    · exact List.append_cancel_left h

theorem prefix_usn (udn target : Str) : udn <+: usn udn target := by
  unfold usn
  split
  · exact List.prefix_refl udn
  · exact (List.prefix_append udn _).trans (List.prefix_append _ _)

/-- Servers with different GUIDs have no USN in common. -/
theorem usn_ne_of_udn_ne {gMS gMS' : MediaServerPP} (h : gMS.udn ≠ gMS'.udn) (t t' : Str) :
    usn gMS.udnString t ≠ usn gMS'.udnString t' := by
  intro heq
  have hp := prefix_usn gMS.udnString t
  rw [heq] at hp
  have hlen : gMS.udnString.length = gMS'.udnString.length :=
    gMS.udn.length_toString.trans gMS'.udn.length_toString.symm
  have hle := List.prefix_of_prefix_length_le hp (prefix_usn gMS'.udnString t') hlen.le
  exact h (Guid.toString_injective (hle.eq_of_length hlen))

/-! ## Reading the messages back -/

theorem fieldText_usn {udn target : Str} (hudn : FieldText udn) (htarget : FieldText target) :
    FieldText (usn udn target) := by
  rw [usn]
  split
  · exact hudn
  · exact (hudn.append (by decide)).append htarget

section Reading

variable {udn target : Str} (hudn : FieldText udn) (htarget : FieldText target)

include hudn htarget

theorem fieldText_byebyeHeaders :
    ∀ header ∈ byebyeHeaders udn target, HeaderName header.name ∧ FieldText header.value := by
  have husn := fieldText_usn hudn htarget
  simp only [byebyeHeaders, List.forall_mem_cons]
  exact ⟨by decide, ⟨by decide, htarget⟩, by decide, ⟨by decide, husn⟩, nofun⟩

theorem field_buildMsg_byebye (name label : Str) :
    field (buildMsg name udn target byebye) label =
      ((byebyeHeaders udn target).getHeader label).map Header.value := by
  rw [buildMsg_byebye]
  exact field_message_of_fieldText (by decide) (fieldText_byebyeHeaders hudn htarget) label

variable {name : Str} (hname : FieldText name)

include hname

theorem fieldText_aliveHeaders :
    ∀ header ∈ aliveHeaders name udn target, HeaderName header.name ∧ FieldText header.value := by
  have husn := fieldText_usn hudn htarget
  simp only [aliveHeaders, List.forall_mem_cons]
  exact ⟨by decide, ⟨by decide, htarget⟩, by decide, by decide, ⟨by decide, husn⟩, by decide,
    ⟨by decide, hname⟩, nofun⟩

theorem field_buildMsg_alive (label : Str) :
    field (buildMsg name udn target alive) label =
      ((aliveHeaders name udn target).getHeader label).map Header.value := by
  rw [buildMsg_alive]
  exact field_message_of_fieldText (by decide) (fieldText_aliveHeaders hudn htarget hname) label

theorem headerLine_discoveryHeaders {date : Str} (hdate : OneLine date) :
    ∀ header ∈ discoveryHeaders name udn date target, HeaderLine header := by
  have husn := fieldText_usn hudn htarget
  have hline {label value : Str} (hlabel : HeaderName label) (hvalue : OneLine value) :
      HeaderLine ⟨label, value⟩ := ⟨hlabel, hvalue⟩
  simp only [discoveryHeaders, List.forall_mem_cons]
  exact ⟨hline (by decide) (by decide), hline (by decide) (hdate.append (by decide)),
    hline (by decide) (by decide), hline (by decide) hname.toOneLine,
    hline (by decide) htarget.toOneLine, hline (by decide) (by decide),
    hline (by decide) husn.toOneLine, hline (by decide) (by decide), nofun⟩

/-- The date is any text on one line, and comes back trimmed. -/
theorem field_discovery {date : Str} (hdate : OneLine date) (label : Str) :
    field (discovery name udn date target) label =
      ((discoveryHeaders name udn date target).getHeader label).map fun header =>
        Headers.trim header.value := by
  rw [discovery_eq]
  exact field_message (by decide) (headerLine_discoveryHeaders hudn htarget hname hdate) label

end Reading

end Upnp
end MediaServer
