/-
The DATE header of a search reply.

`ToString` ends an RFC 1123 date with its time zone, and `sendDiscover` writes
another ` GMT` behind it.  `date_never_valid` is what follows: `FromString`
accepts the value of no reply.  Without the second time zone it would be the time
of the reply, `toTimeStamp_fromString_dateString`.
-/
import MediaServer.Neptune.Calendar
import MediaServer.Network.Upnp

namespace MediaServer
namespace Upnp

open Text Neptune

/-- The value after `DATE: `, up to the end of the first line that starts so. -/
def dateValue (text : Str) : Option Str :=
  ((splitCRLF text).1.find? fun line => "DATE: ".toList.isPrefixOf line).map (List.drop 6)

/-- The DATE header of a reply sent at the time `now` is accepted and denotes that
time, to the second. -/
def DateValid (now : TimeStamp) (reply : Datagram) : Prop :=
  ∃ value, dateValue reply.payload = some value ∧
    (DateTime.fromString value).bind DateTime.toTimeStamp = some now.truncated

theorem dateValue_discovery {date : Str} (hdate : OneLine date) (name udn st : Str) :
    dateValue (discovery name udn date st) = some (date ++ " GMT".toList) := by
  have hcr : '\r' ∉ (Header.mk "DATE".toList (date ++ " GMT".toList)).line := by
    simp [Header.line, hdate.cr]
  have hline : "DATE: ".toList.isPrefixOf
      (Header.mk "DATE".toList (date ++ " GMT".toList)).line = true := rfl
  rw [dateValue, discovery_eq, message, messageLines, discoveryHeaders]
  simp only [List.map_cons, List.cons_append, List.flatMap_cons]
  rw [splitCRLF_line (by decide), splitCRLF_line (by decide), splitCRLF_line hcr]
  rw [List.find?_cons_of_neg (by decide), List.find?_cons_of_neg (by decide),
    List.find?_cons_of_pos hline]
  rfl

theorem dateValue_sendDiscover (gMS : MediaServerPP) (now : TimeStamp) (host : Str)
    (port : Int32) (st : Str) :
    dateValue (sendDiscover gMS now host port st).payload =
      some (dateString now ++ " GMT".toList) :=
  dateValue_discovery (oneLine_dateString now) _ _ _

/-- The text of a date, empty when the date is not valid, is no date any more with
a second time zone behind it. -/
theorem fromString_toString_append_gmt (date : DateTime) :
    DateTime.fromString (date.toString ++ " GMT".toList) = none := by
  cases hvalid : date.checkDate with
  | true => exact DateTime.fromString_toString_append hvalid (by decide) (by decide)
  | false =>
    have hempty : date.toString = [] := by
      rw [DateTime.toString, hvalid]
      rfl
    rw [hempty]
    decide

/-- Without the second time zone the header would denote the time of the reply. -/
theorem toTimeStamp_fromString_dateString {now : TimeStamp}
    (hrange : -2147483648 ≤ now.toSeconds)
    (hfraction : 0 ≤ now.nanoSeconds.toInt.tmod 1000000000) :
    (DateTime.fromString (dateString now)).bind DateTime.toTimeStamp =
      some now.truncated := by
  cases hdate : DateTime.fromTimeStamp now with
  | none =>
    rw [DateTime.fromTimeStamp_eq, if_neg (by omega)] at hdate
    cases hdate
  | some date =>
    rw [dateString, hdate, Option.getD_some]
    exact DateTime.toTimeStamp_fromString hdate
      ((DateTime.checkDate_fromTimeStamp hdate).mpr hfraction)

theorem toTimeStamp_fromString_dateString_january :
    (DateTime.fromString (dateString ⟨172800500000000⟩)).bind DateTime.toTimeStamp =
      some (TimeStamp.truncated ⟨172800500000000⟩) :=
  toTimeStamp_fromString_dateString (by decide) (by decide)

/-- No reply has a valid DATE header, at whatever time it is sent. -/
theorem date_never_valid (gMS : MediaServerPP) (now : TimeStamp) (host : Str) (port : Int32)
    (st : Str) : ¬ DateValid now (sendDiscover gMS now host port st) := by
  intro hcase
  obtain ⟨value, hvalue, hread⟩ := hcase
  rw [dateValue_sendDiscover] at hvalue
  cases hvalue
  rw [dateString, fromString_toString_append_gmt] at hread
  cases hread

/-- At the epoch the value is `Thu, 01 Jan 1970 00:00:00 GMT GMT`. -/
theorem not_dateValid_epoch :
    ¬ DateValid ⟨0⟩ (sendDiscover .new ⟨0⟩ "10.0.0.1".toList 1900 rootDevice) := by
  have hwritten : dateValue (sendDiscover .new ⟨0⟩ "10.0.0.1".toList 1900 rootDevice).payload =
      some "Thu, 01 Jan 1970 00:00:00 GMT GMT".toList := by decide +kernel
  have hrejected :
      DateTime.fromString "Thu, 01 Jan 1970 00:00:00 GMT GMT".toList = none := by decide
  intro hcase
  obtain ⟨value, hvalue, hread⟩ := hcase
  rw [hwritten] at hvalue
  cases hvalue
  rw [hrejected] at hread
  cases hread

end Upnp
end MediaServer
