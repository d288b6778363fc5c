/-
Withdrawing what was announced.

A run of the server is any sequence of rounds of announcements and of replies,
and `sendByeBye` at its end.  The withdrawal covers four of the five targets and
leaves out the UDN, so the USN of the UDN stays in every cache that has it:
`withdrawn_iff`.
-/
import MediaServer.Network.ControlPoint

namespace MediaServer
namespace Upnp

open Text Neptune Machine

theorem mem_withdrawn_iff {gMS : MediaServerPP} {t : Str} (ht : t ∈ announced gMS) :
    t ∈ withdrawn ↔ t ≠ gMS.udnString := by
  have hlength : ∀ u ∈ withdrawn, u.length ≠ 36 := by decide
  constructor
  · exact fun h e => udnString_ne gMS (hlength t h) e.symm
  · intro hne
    simp only [announced, List.mem_cons, List.not_mem_nil, or_false] at ht
    rcases ht with rfl | rfl | rfl | rfl | rfl
    · simp [withdrawn]
    · exact absurd rfl hne
    · simp [withdrawn]
    · simp [withdrawn]
    · simp [withdrawn]

/-- Something that the server sends before it withdraws: a round of announcements,
or a reply for a target that the listener answers. -/
inductive Sending (gMS : MediaServerPP) where
  | round
  | reply (now : TimeStamp) (host : Str) (port : Int32) (st : Str)
      (h : st ∈ answeredTargets gMS)

namespace Sending

variable {gMS : MediaServerPP}

def datagrams : Sending gMS → List Datagram
  | round => sendAlive gMS
  | reply now host port st _ => [sendDiscover gMS now host port st]

def targets : Sending gMS → List Str
  | round => announced gMS
  | reply _ _ _ st _ => [st]

def entry : Sending gMS → Entry
  | round => ⟨location, 1800⟩
  | reply .. => ⟨location, 1200⟩

/-- It announces nothing under the UDN: it is a reply for another target. -/
def SparesUdn : Sending gMS → Prop
  | round => False
  | reply _ _ _ st _ => st ≠ gMS.udnString

instance : DecidablePred (@SparesUdn gMS)
  | round => inferInstanceAs (Decidable False)
  | reply _ _ _ st _ => inferInstanceAs (Decidable (st ≠ gMS.udnString))

theorem heardAll_datagrams (s : Sending gMS) :
    heardAll s.datagrams =
      s.targets.map fun t => .put (usn gMS.udnString t) s.entry := by
  cases s with
  | round => exact heardAll_sendAlive gMS
  | reply now host port st h =>
    show heardAll ([st].map (sendDiscover gMS now host port)) = _
    exact heardAll_map fun t ht =>
      heard_reply (List.mem_singleton.mp ht ▸ mem_announced_of_answered h) now host port

theorem targets_withdrawn_iff (s : Sending gMS) :
    (∀ t ∈ s.targets, t ∈ withdrawn) ↔ s.SparesUdn := by
  cases s with
  | round =>
    have hudn : gMS.udnString ∈ announced gMS := by simp [announced]
    exact ⟨fun h => (mem_withdrawn_iff hudn).mp (h _ hudn) rfl, False.elim⟩
  | reply now host port st h =>
    show (∀ t ∈ [st], t ∈ withdrawn) ↔ st ≠ gMS.udnString
    rw [List.forall_mem_singleton, mem_withdrawn_iff (mem_announced_of_answered h)]

end Sending

/-- The cache of a control point that hears some sendings and then the withdrawal. -/
def cacheAfter (gMS : MediaServerPP) (sendings : List (Sending gMS)) : Cache Str Entry :=
  Cache.empty.applyAll (heardAll (sendings.flatMap Sending.datagrams ++ sendByeBye gMS))

theorem heardAll_sendings {gMS : MediaServerPP} (sendings : List (Sending gMS)) :
    heardAll (sendings.flatMap Sending.datagrams) = sendings.flatMap fun s =>
      s.targets.map fun t => .put (usn gMS.udnString t) s.entry := by
  induction sendings with
  | nil => rfl
  | cons s sendings ih =>
    rw [List.flatMap_cons, heardAll_append, ih, Sending.heardAll_datagrams, List.flatMap_cons]

theorem value_ne_none_of_sendings {gMS : MediaServerPP} {sendings : List (Sending gMS)} :
    ∀ u ∈ heardAll (sendings.flatMap Sending.datagrams), u.value ≠ none := by
  intro u hu
  rw [heardAll_sendings] at hu
  obtain ⟨s, -, hu⟩ := List.mem_flatMap.mp hu
  obtain ⟨t, -, rfl⟩ := List.mem_map.mp hu
  exact nofun

/-- A key is still in the cache when it was put and is not one that is withdrawn. -/
theorem cacheAfter_eq_none_iff {gMS : MediaServerPP} {sendings : List (Sending gMS)}
    (key : Str) :
    cacheAfter gMS sendings key = none ↔ key ∈ withdrawn.map (usn gMS.udnString) ∨
      ∀ s ∈ sendings, ∀ t ∈ s.targets, usn gMS.udnString t ≠ key := by
  rw [cacheAfter, heardAll_append, heardAll_sendByeBye, Cache.applyAll_append,
    Cache.applyAll_drops]
  by_cases hkey : key ∈ withdrawn.map (usn gMS.udnString)
  · simp only [hkey, if_true, true_or]
  · rw [if_neg hkey, Cache.applyAll_puts_eq_none _ value_ne_none_of_sendings,
      heardAll_sendings]
    simp only [List.forall_mem_flatMap, List.forall_mem_map, Update.key, hkey, false_or]

/-- The withdrawal leaves nothing in the cache exactly when nothing was announced
under the UDN. -/
theorem withdrawn_iff (gMS : MediaServerPP) (sendings : List (Sending gMS)) :
    (∀ key, cacheAfter gMS sendings key = none) ↔ ∀ s ∈ sendings, s.SparesUdn := by
  calc (∀ key, cacheAfter gMS sendings key = none)
      ↔ ∀ s ∈ sendings, ∀ t ∈ s.targets,
          usn gMS.udnString t ∈ withdrawn.map (usn gMS.udnString) := by
        simp only [cacheAfter_eq_none_iff]
        constructor
        · intro h s hs t ht
          exact (h (usn gMS.udnString t)).resolve_right fun hnot => hnot s hs t ht rfl
        · intro h key
          by_cases hkey : key ∈ withdrawn.map (usn gMS.udnString)
          · exact Or.inl hkey
          · exact Or.inr fun s hs t ht e => hkey (e ▸ h s hs t ht)
    _ ↔ ∀ s ∈ sendings, ∀ t ∈ s.targets, t ∈ withdrawn := by
        simp only [List.mem_map_of_injective (usn_injective gMS.udnString)]
    _ ↔ ∀ s ∈ sendings, s.SparesUdn := by
        simp only [Sending.targets_withdrawn_iff]

/-- One round of announcements is not withdrawn completely. -/
theorem not_withdrawn_round : ¬ ∀ key, cacheAfter .new [.round] key = none := by
  intro h
  have hudn : MediaServerPP.new.udnString ∈ announced .new := by simp [announced]
  have hnot : usn MediaServerPP.new.udnString MediaServerPP.new.udnString ∉
      withdrawn.map (usn MediaServerPP.new.udnString) := by
    rw [List.mem_map_of_injective (usn_injective _), mem_withdrawn_iff hudn]
    exact fun hne => hne rfl
  rcases (cacheAfter_eq_none_iff _).mp (h _) with hkey | hkey
  · exact hnot hkey
  · exact hkey .round List.mem_cons_self _ hudn rfl

end Upnp
end MediaServer
