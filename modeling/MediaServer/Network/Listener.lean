/-
The listener: the loop of `Server::listen` over received datagrams.

The listener tests a search with `find_first_of`, which looks for any character
of its argument.  A search starts with an M, so a test fails exactly when its text
contains an M, whatever else the datagram says: `answered_of_search`.  Every
search is answered with the same four targets, to the address it came from.

`answersWhatIsAsked_iff` and `announcedSearchable_iff` say for which datagrams this
is what was asked.
-/
import Mathlib.Data.List.Nodup
import MediaServer.Network.Upnp

namespace MediaServer
namespace Upnp

open Text Neptune

def mSearch : Str := "M-SEARCH".toList

def ssdpAll : Str := "ssdp:all".toList

/-- The targets that the tests of the listener let through, in their order. -/
def answered (gMS : MediaServerPP) (s : Str) : List Str :=
  (if 0 < findFirstOf s contentDirectory then [contentDirectory] else []) ++
  (if 0 < findFirstOf s rootDevice then [rootDevice] else []) ++
  (if 0 < findFirstOf s mediaServer then [mediaServer] else []) ++
  (if 0 < findFirstOf s ssdpAll then [mediaServer] else []) ++
  (if 0 < findFirstOf s gMS.udnString then [gMS.udnString] else [])

/-- What `Receive` leaves of a datagram, in a buffer of 1024 bytes. -/
def received (datagram : Str) : Str := datagram.take 1024

/-- The replies to a datagram from `address`.  Reply `i` is sent at the time
`clock i`.  A datagram that is not a search, a notification for one, has none. -/
def receive (gMS : MediaServerPP) (clock : Nat → TimeStamp) (address : SocketAddress)
    (datagram : Str) : List Datagram :=
  let s := received datagram
  if compareFirst s 8 mSearch then
    let remoteAddr := address.ipAddress.toString
    let remotePort := address.port.toInt32
    (answered gMS s).mapIdx fun i st => sendDiscover gMS (clock i) remoteAddr remotePort st
  else []

def searchTargets (replies : List Datagram) : List Str :=
  replies.filterMap fun reply => field reply.payload "ST".toList

/-! ## Every search gets the same replies -/

/-- The buffer is long enough to tell a search. -/
theorem prefix_received_iff (s : Str) : mSearch <+: received s ↔ mSearch <+: s := by
  have hlength : mSearch.length ≤ 1024 := by decide
  rw [received, List.prefix_take_iff]
  exact and_iff_left hlength

theorem compareFirst_mSearch (s : Str) :
    compareFirst (received s) 8 mSearch = true ↔ mSearch <+: s :=
  (compareFirst_length (received s) mSearch).trans (prefix_received_iff s)

theorem head?_of_search {s : Str} (h : mSearch <+: s) : s.head? = some 'M' :=
  head?_of_prefix (t := "-SEARCH".toList) h

/-- On a search, a test lets its target through when its text has no M. -/
theorem findFirstOf_search {s : Str} (h : mSearch <+: s) (set : Str) :
    0 < findFirstOf s set ↔ 'M' ∉ set := by
  rw [findFirstOf_pos, head?_of_search h]
  simp

/-- The targets that a search is answered with. -/
def answeredTargets (gMS : MediaServerPP) : List Str :=
  [contentDirectory, rootDevice, mediaServer, gMS.udnString]

theorem answered_of_search (gMS : MediaServerPP) {s : Str} (h : mSearch <+: s) :
    answered gMS s = answeredTargets gMS := by
  have hudn : 'M' ∉ gMS.udnString := Guid.not_mem_toString (by decide) (by decide) gMS.udn
  simp only [answered, findFirstOf_search h]
  rw [if_pos (by decide), if_pos (by decide), if_neg (by decide), if_pos (by decide),
    if_pos hudn]
  rfl

theorem mem_announced_of_answered {gMS : MediaServerPP} {t : Str} (h : t ∈ answeredTargets gMS) :
    t ∈ announced gMS := by
  simp only [answeredTargets, List.mem_cons, List.not_mem_nil, or_false] at h
  rcases h with rfl | rfl | rfl | rfl <;> simp [announced]

/-- The targets that are the same for every server have another length than a UDN. -/
theorem udnString_notMem_fixed (gMS : MediaServerPP) :
    gMS.udnString ∉ [contentDirectory, rootDevice, mediaServer, connectionManager] := by
  have hlength : ∀ t ∈ [contentDirectory, rootDevice, mediaServer, connectionManager],
      t.length ≠ 36 := by decide
  exact fun hmem => udnString_ne gMS (hlength _ hmem) rfl

theorem nodup_answeredTargets (gMS : MediaServerPP) : (answeredTargets gMS).Nodup := by
  have hfixed : [contentDirectory, rootDevice, mediaServer].Nodup := by decide
  have hudn : gMS.udnString ∉ [contentDirectory, rootDevice, mediaServer] := fun hmem =>
    udnString_notMem_fixed gMS (List.mem_append_left [connectionManager] hmem)
  show ([contentDirectory, rootDevice, mediaServer] ++ [gMS.udnString]).Nodup
  refine List.nodup_append.mpr ⟨hfixed, List.nodup_singleton _, fun t ht u hu heq => ?_⟩
  rw [List.mem_singleton] at hu
  rw [heq, hu] at ht
  exact hudn ht

theorem field_sendDiscover {gMS : MediaServerPP} {st : Str} (hst : FieldText st)
    (now : TimeStamp) (host : Str) (port : Int32) :
    field (sendDiscover gMS now host port st).payload "ST".toList = some st := by
  show field (discovery gMS.name gMS.udnString (dateString now) st) _ = _
  rw [field_discovery (fieldText_udnString gMS) hst gMS.name_text
    (oneLine_dateString now)]
  exact congrArg some hst.trim_eq

theorem receive_of_search {gMS : MediaServerPP} {s : Str} (h : mSearch <+: s)
    (clock : Nat → TimeStamp) (address : SocketAddress) :
    receive gMS clock address s = (answeredTargets gMS).mapIdx fun i st =>
      sendDiscover gMS (clock i) address.ipAddress.toString address.port.toInt32 st := by
  have hreceived := (prefix_received_iff s).mpr h
  rw [receive, if_pos ((compareFirst_mSearch s).mpr h), answered_of_search gMS hreceived]

theorem receive_of_not_search {gMS : MediaServerPP} {s : Str} (h : ¬ mSearch <+: s)
    (clock : Nat → TimeStamp) (address : SocketAddress) :
    receive gMS clock address s = [] := by
  rw [receive, if_neg]
  exact fun hc => h ((compareFirst_mSearch s).mp hc)

theorem searchTargets_mapIdx {reply : Nat → Str → Datagram} {targets : List Str}
    (h : ∀ st ∈ targets, ∀ i, field (reply i st).payload "ST".toList = some st) :
    searchTargets (targets.mapIdx reply) = targets := by
  induction targets generalizing reply with
  | nil => rfl
  | cons st targets ih =>
    rw [List.mapIdx_cons, searchTargets, List.filterMap_cons, h st List.mem_cons_self]
    exact congrArg (st :: ·) (ih fun st' hst' i => h st' (List.mem_cons_of_mem st hst') (i + 1))

theorem searchTargets_receive (gMS : MediaServerPP) {s : Str} (h : mSearch <+: s)
    (clock : Nat → TimeStamp) (address : SocketAddress) :
    searchTargets (receive gMS clock address s) = answeredTargets gMS := by
  rw [receive_of_search h]
  refine searchTargets_mapIdx fun st hst i => ?_
  have htext := fieldText_announced gMS st (mem_announced_of_answered hst)
  exact field_sendDiscover htext _ _ _

theorem destination_of_mem_receive {gMS : MediaServerPP} {s : Str} {clock : Nat → TimeStamp}
    {address : SocketAddress} {reply : Datagram} (h : reply ∈ receive gMS clock address s) :
    reply.destination = address := by
  by_cases hs : mSearch <+: s
  · rw [receive_of_search hs, List.mem_mapIdx] at h
    obtain ⟨i, hi, rfl⟩ := h
    show SocketAddress.mk (IpAddress.parse address.ipAddress.toString)
      address.port.toInt32.toUInt32 = address
    rw [IpAddress.parse_toString, UInt32.toUInt32_toInt32]
  · rw [receive_of_not_search hs] at h
    cases h

/-! ## When the replies are what was asked for -/

/-- The listener answers a datagram with exactly the targets that occur in it. -/
structure AnswersWhatIsAsked (gMS : MediaServerPP) (clock : Nat → TimeStamp)
    (address : SocketAddress) (s : Str) : Prop where
  quiet : ¬ mSearch <+: s → receive gMS clock address s = []
  target : mSearch <+: s → ∀ t ∈ [contentDirectory, rootDevice, gMS.udnString],
    t ∈ searchTargets (receive gMS clock address s) ↔ Occurs t s
  device : mSearch <+: s →
    (mediaServer ∈ searchTargets (receive gMS clock address s) ↔
      Occurs mediaServer s ∨ Occurs ssdpAll s)
  back : ∀ reply ∈ receive gMS clock address s, reply.destination = address

/-- This is so exactly when the datagram is no search, or asks for all the targets
that every search is answered with. -/
theorem answersWhatIsAsked_iff (gMS : MediaServerPP) (clock : Nat → TimeStamp)
    (address : SocketAddress) (s : Str) :
    AnswersWhatIsAsked gMS clock address s ↔
      (mSearch <+: s → Occurs contentDirectory s ∧ Occurs rootDevice s ∧
        Occurs gMS.udnString s ∧ (Occurs mediaServer s ∨ Occurs ssdpAll s)) := by
  constructor
  · intro h hs
    have htargets := searchTargets_receive gMS hs clock address
    have htarget := h.target hs
    have hdevice := h.device hs
    rw [htargets] at htarget hdevice
    simp only [List.forall_mem_cons] at htarget
    refine ⟨htarget.1.mp ?_, htarget.2.1.mp ?_, htarget.2.2.1.mp ?_, hdevice.mp ?_⟩
    all_goals simp [answeredTargets]
  · intro h
    refine ⟨fun hs => receive_of_not_search hs clock address, fun hs => ?_, fun hs => ?_,
      fun reply => destination_of_mem_receive⟩
    · obtain ⟨hcontent, hroot, hudn, -⟩ := h hs
      rw [searchTargets_receive gMS hs]
      simp only [List.forall_mem_cons, List.not_mem_nil, hcontent, hroot, hudn, iff_true]
      simp [answeredTargets]
    · rw [searchTargets_receive gMS hs]
      simp [answeredTargets, (h hs).2.2.2]

def rootDeviceSearch : Str :=
  "M-SEARCH * HTTP/1.1\r\nMAN: \"ssdp:discover\"\r\nST: upnp:rootdevice\r\n\r\n".toList

/-- A search for the root device is answered for the content directory too. -/
theorem not_answersWhatIsAsked_rootDevice :
    ¬ AnswersWhatIsAsked .new (fun _ => ⟨0⟩) ⟨⟨10, 0, 0, 1⟩, 1900⟩ rootDeviceSearch := by
  intro h
  have hsearch : mSearch <+: rootDeviceSearch := by decide
  have htarget := h.target hsearch contentDirectory List.mem_cons_self
  rw [searchTargets_receive _ hsearch] at htarget
  have hoccurs : ¬ Occurs contentDirectory rootDeviceSearch := by decide +kernel
  exact hoccurs (htarget.mp List.mem_cons_self)

/-! ## When what is announced can be searched for -/

/-- A search whose ST names an announced target gets one reply with that target,
and a search for all targets gets one for each of them. -/
structure AnnouncedSearchable (gMS : MediaServerPP) (clock : Nat → TimeStamp)
    (address : SocketAddress) (s : Str) : Prop where
  one : mSearch <+: s → ∀ t ∈ announced gMS, field s "ST".toList = some t →
    (searchTargets (receive gMS clock address s)).count t = 1
  all : mSearch <+: s → field s "ST".toList = some ssdpAll → ∀ t ∈ announced gMS,
    (searchTargets (receive gMS clock address s)).count t = 1

theorem mem_answeredTargets {gMS : MediaServerPP} {t : Str} (ht : t ∈ announced gMS)
    (hne : t ≠ connectionManager) : t ∈ answeredTargets gMS := by
  simp only [announced, List.mem_cons, List.not_mem_nil, or_false] at ht
  rcases ht with rfl | rfl | rfl | rfl | rfl
  · simp [answeredTargets]
  · simp [answeredTargets]
  · simp [answeredTargets]
  · simp [answeredTargets]
  · exact absurd rfl hne

theorem connectionManager_not_answered (gMS : MediaServerPP) :
    connectionManager ∉ answeredTargets gMS := by
  have hudn : connectionManager ≠ gMS.udnString := by
    intro heq
    refine udnString_notMem_fixed gMS ?_
    rw [← heq]
    simp
  have hfixed : connectionManager ∉ [contentDirectory, rootDevice, mediaServer] := by decide
  show connectionManager ∉ [contentDirectory, rootDevice, mediaServer] ++ [gMS.udnString]
  simp only [List.mem_append, List.mem_singleton, not_or]
  exact ⟨hfixed, hudn⟩

/-- A search gets what its ST announces exactly when it asks neither for the
connection manager nor for everything. -/
theorem announcedSearchable_iff (gMS : MediaServerPP) (clock : Nat → TimeStamp)
    (address : SocketAddress) (s : Str) :
    AnnouncedSearchable gMS clock address s ↔
      (mSearch <+: s → field s "ST".toList ≠ some connectionManager ∧
        field s "ST".toList ≠ some ssdpAll) := by
  have hannounced : connectionManager ∈ announced gMS := by simp [announced]
  have hnone (hs : mSearch <+: s) :
      (searchTargets (receive gMS clock address s)).count connectionManager ≠ 1 := by
    rw [searchTargets_receive gMS hs,
      List.count_eq_zero_of_not_mem (connectionManager_not_answered gMS)]
    decide
  constructor
  · intro h hs
    exact ⟨fun hst => hnone hs (h.one hs _ hannounced hst),
      fun hst => hnone hs (h.all hs hst _ hannounced)⟩
  · intro h
    refine ⟨fun hs t ht hst => ?_, fun hs hst => absurd hst (h hs).2⟩
    have hne : t ≠ connectionManager := fun e => (h hs).1 (e ▸ hst)
    rw [searchTargets_receive gMS hs]
    exact List.count_eq_one_of_mem (nodup_answeredTargets gMS) (mem_answeredTargets ht hne)

def connectionManagerSearch : Str :=
  "M-SEARCH * HTTP/1.1\r\nST: urn:schemas-upnp-org:service:ConnectionManager:1\r\n\r\n".toList

/-- The connection manager is announced and gets no reply. -/
theorem not_announcedSearchable_connectionManager :
    ¬ AnnouncedSearchable .new (fun _ => ⟨0⟩) ⟨⟨10, 0, 0, 1⟩, 1900⟩
      connectionManagerSearch := by
  intro h
  have hsearch : mSearch <+: connectionManagerSearch := by decide
  have hone := h.one hsearch connectionManager (by decide) (by decide)
  rw [searchTargets_receive _ hsearch,
    List.count_eq_zero_of_not_mem (connectionManager_not_answered _)] at hone
  cases hone

end Upnp
end MediaServer
