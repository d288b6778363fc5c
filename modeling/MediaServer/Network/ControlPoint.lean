/-
A control point that listens to the messages.

It reads a datagram as any receiver would, from its text: the start line tells a
notification from a search reply, the NTS header tells alive from byebye, and the
USN is the key of its cache.  An alive notification and a reply put an entry with
the LOCATION and the lifetime they give, and a byebye drops it.

`heard_alive`, `heard_byebye` and `heard_reply` say what it hears of each message
that the server sends.  They are all that the results about caches use.
-/
import MediaServer.Machine.Cache
import MediaServer.Network.Listener

namespace MediaServer
namespace Upnp

open Text Neptune Machine

/-- What a control point keeps of an announcement: where, and for how many seconds. -/
structure Entry where
  location : Str
  maxAge : Nat
  deriving DecidableEq

def maxAgeSeconds (value : Str) : Nat :=
  (value.drop "max-age=".length).foldl (fun n c => 10 * n + (c.toNat - '0'.toNat)) 0

def announcement (payload : Str) : Option Entry :=
  match field payload "LOCATION".toList, field payload "CACHE-CONTROL".toList with
  | some location, some control =>
    some { location := location, maxAge := maxAgeSeconds control }
  | _, _ => none

/-- The update of the cache that a message calls for. -/
def heard (payload : Str) : Option (Update Str Entry) :=
  match (splitCRLF payload).1.head?, field payload "USN".toList with
  | some startLine, some usn =>
    if startLine = "NOTIFY * HTTP/1.1".toList then
      if field payload "NTS".toList = some alive then
        (announcement payload).map fun entry => .put usn entry
      else if field payload "NTS".toList = some byebye then some (.drop usn)
      else none
    else if startLine = "HTTP/1.1 200 OK".toList then
      (announcement payload).map fun entry => .put usn entry
    else none
  | _, _ => none

def heardAll (datagrams : List Datagram) : List (Update Str Entry) :=
  datagrams.filterMap fun d => heard d.payload

theorem heardAll_append (ds es : List Datagram) :
    heardAll (ds ++ es) = heardAll ds ++ heardAll es := List.filterMap_append

theorem heardAll_map {α : Type} {message : α → Datagram} {update : α → Update Str Entry}
    {xs : List α} (h : ∀ x ∈ xs, heard (message x).payload = some (update x)) :
    heardAll (xs.map message) = xs.map update := by
  induction xs with
  | nil => rfl
  | cons x xs ih =>
    rw [List.map_cons, heardAll, List.filterMap_cons, h x List.mem_cons_self]
    exact congrArg (update x :: ·) (ih fun y hy => h y (List.mem_cons_of_mem x hy))

/-! ## What it hears of the server -/

section Heard

variable {gMS : MediaServerPP} {t : Str}

/-- An alive notification announces its target for half an hour. -/
theorem heard_alive (ht : t ∈ announced gMS) :
    heard (sendMessage gMS t alive).payload =
      some (.put (usn gMS.udnString t) ⟨location, 1800⟩) := by
  have htext := fieldText_announced gMS t ht
  have hfield := field_buildMsg_alive (fieldText_udnString gMS) htext
    gMS.name_text
  have hstart : (splitCRLF (buildMsg gMS.name gMS.udnString t alive)).1.head? =
      some "NOTIFY * HTTP/1.1".toList := by
    rw [buildMsg_alive]
    exact head?_splitCRLF_message (by decide) _
  have husn : field (buildMsg gMS.name gMS.udnString t alive) "USN".toList =
      some (usn gMS.udnString t) := hfield _
  have hnts : field (buildMsg gMS.name gMS.udnString t alive) "NTS".toList = some alive :=
    hfield _
  have hentry : announcement (buildMsg gMS.name gMS.udnString t alive) =
      some ⟨location, 1800⟩ := by
    rw [announcement, hfield, hfield]
    rfl
  show heard (buildMsg gMS.name gMS.udnString t alive) = _
  rw [heard, hstart, husn]
  simp only [if_true, hnts, hentry, Option.map_some]

/-- A byebye notification withdraws its target. -/
theorem heard_byebye (ht : t ∈ announced gMS) :
    heard (sendMessage gMS t byebye).payload = some (.drop (usn gMS.udnString t)) := by
  have htext := fieldText_announced gMS t ht
  have hfield := field_buildMsg_byebye (fieldText_udnString gMS) htext
    gMS.name
  have hstart : (splitCRLF (buildMsg gMS.name gMS.udnString t byebye)).1.head? =
      some "NOTIFY * HTTP/1.1".toList := by
    rw [buildMsg_byebye]
    exact head?_splitCRLF_message (by decide) _
  have husn : field (buildMsg gMS.name gMS.udnString t byebye) "USN".toList =
      some (usn gMS.udnString t) := hfield _
  have hnts : field (buildMsg gMS.name gMS.udnString t byebye) "NTS".toList = some byebye :=
    hfield _
  have hne : some byebye ≠ some alive := by decide
  show heard (buildMsg gMS.name gMS.udnString t byebye) = _
  rw [heard, hstart, husn]
  simp only [if_true, hnts, if_neg hne]

/-- A reply announces its target for twenty minutes. -/
theorem heard_reply (ht : t ∈ announced gMS) (now : TimeStamp) (host : Str) (port : Int32) :
    heard (sendDiscover gMS now host port t).payload =
      some (.put (usn gMS.udnString t) ⟨location, 1200⟩) := by
  have htext := fieldText_announced gMS t ht
  have husntext := fieldText_usn (fieldText_udnString gMS) htext
  have hfield := field_discovery (fieldText_udnString gMS) htext
    gMS.name_text (oneLine_dateString now)
  have hstart : (splitCRLF (discovery gMS.name gMS.udnString (dateString now) t)).1.head? =
      some "HTTP/1.1 200 OK".toList := by
    rw [discovery_eq]
    exact head?_splitCRLF_message (by decide) _
  have husn : field (discovery gMS.name gMS.udnString (dateString now) t) "USN".toList =
      some (usn gMS.udnString t) := (hfield _).trans (congrArg some husntext.trim_eq)
  have hentry : announcement (discovery gMS.name gMS.udnString (dateString now) t) =
      some ⟨location, 1200⟩ := by
    rw [announcement, hfield, hfield]
    rfl
  show heard (discovery gMS.name gMS.udnString (dateString now) t) = _
  rw [heard, hstart, husn]
  simp only [hentry, Option.map_some]
  rw [if_neg (by decide)]
  rfl

theorem mem_announced_of_withdrawn (ht : t ∈ withdrawn) : t ∈ announced gMS := by
  simp only [withdrawn, List.mem_cons, List.not_mem_nil, or_false] at ht
  rcases ht with rfl | rfl | rfl | rfl <;> simp [announced]

theorem heardAll_sendAlive (gMS : MediaServerPP) :
    heardAll (sendAlive gMS) =
      (announced gMS).map fun t => .put (usn gMS.udnString t) ⟨location, 1800⟩ := by
  rw [sendAlive_eq]
  exact heardAll_map fun t ht => heard_alive ht

theorem heardAll_sendByeBye (gMS : MediaServerPP) :
    heardAll (sendByeBye gMS) = (withdrawn.map (usn gMS.udnString)).map .drop := by
  rw [sendByeBye_eq, List.map_map]
  exact heardAll_map fun t ht => heard_byebye (mem_announced_of_withdrawn ht)

end Heard

end Upnp
end MediaServer
