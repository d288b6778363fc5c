/-
Two servers on one network.

A control point hears the messages of two servers in any order and keys its cache
by USN.  Each entry remembers the server that put it.  A message disturbs the
cache when it drops or overwrites an entry of the other server.

Servers with different GUIDs have no USN in common and never disturb each other,
`undisturbed_of_udn_ne`.  But the constructor leaves the GUID empty, so the servers
that really run share every USN, and `undisturbed_iff` says which interleavings
happen to go well.
-/
import MediaServer.Network.ControlPoint

namespace MediaServer
namespace Upnp

open Text Neptune Machine

/-! ## Deliveries -/

inductive Kind where
  | alive
  | byebye
  | reply (now : TimeStamp) (host : Str) (port : Int32)

/-- The targets that messages of a kind are about. -/
def Kind.targets (gMS : MediaServerPP) : Kind → List Str
  | alive => announced gMS
  | byebye => withdrawn
  | reply .. => answeredTargets gMS

/-- A message of one of the two servers that is delivered to the control point. -/
structure Delivery (servers : Bool → MediaServerPP) where
  server : Bool
  kind : Kind
  target : Str
  sent : target ∈ kind.targets (servers server)

namespace Delivery

variable {servers : Bool → MediaServerPP}

def datagram (d : Delivery servers) : Datagram :=
  match d.kind with
  | .alive => sendMessage (servers d.server) d.target alive
  | .byebye => sendMessage (servers d.server) d.target byebye
  | .reply now host port => sendDiscover (servers d.server) now host port d.target

/-- The update that the control point makes, with the server as the owner of what
it puts. -/
def update (d : Delivery servers) : Option (Update Str (Bool × Entry)) :=
  (heard d.datagram.payload).map (Update.map (Prod.mk d.server))

def usn (d : Delivery servers) : Str := Upnp.usn (servers d.server).udnString d.target

def entry (d : Delivery servers) : Option (Bool × Entry) :=
  match d.kind with
  | .alive => some (d.server, ⟨location, 1800⟩)
  | .byebye => none
  | .reply .. => some (d.server, ⟨location, 1200⟩)

theorem entry_eq_none_iff (d : Delivery servers) : d.entry = none ↔ d.kind = .byebye := by
  rw [entry]
  cases d.kind <;> simp

theorem server_of_entry {d : Delivery servers} {owner : Bool} {e : Entry}
    (h : d.entry = some (owner, e)) : d.server = owner := by
  rw [entry] at h
  split at h
  · exact (Prod.mk.inj (Option.some.inj h)).1
  · cases h
  · exact (Prod.mk.inj (Option.some.inj h)).1

/-- Every message calls for an update under its USN, to the entry that it puts. -/
theorem exists_update (d : Delivery servers) :
    ∃ u, d.update = some u ∧ u.key = d.usn ∧ u.value = d.entry := by
  obtain ⟨server, kind, target, sent⟩ := d
  cases kind with
  | alive =>
    refine ⟨_, congrArg (Option.map _) (heard_alive sent), rfl, rfl⟩
  | byebye =>
    refine ⟨_, congrArg (Option.map _) (heard_byebye (mem_announced_of_withdrawn sent)),
      rfl, rfl⟩
  | reply now host port =>
    refine ⟨_, congrArg (Option.map _)
      (heard_reply (mem_announced_of_answered sent) now host port), rfl, rfl⟩

end Delivery

section Runs

variable {servers : Bool → MediaServerPP}

def cacheOf (run : List (Delivery servers)) : Cache Str (Bool × Entry) :=
  Cache.empty.applyAll (run.filterMap Delivery.update)

/-- The message drops or overwrites an entry of the other server. -/
def Disturbs (cache : Cache Str (Bool × Entry)) (d : Delivery servers) : Prop :=
  ∃ u owner e, d.update = some u ∧ cache u.key = some (owner, e) ∧ owner ≠ d.server

def Undisturbed (run : List (Delivery servers)) : Prop :=
  ∀ pre d post, run = pre ++ d :: post → ¬ Disturbs (cacheOf pre) d

def lastWith (run : List (Delivery servers)) (key : Str) : Option (Delivery servers) :=
  run.reverse.find? fun d => decide (d.usn = key)

def lastAbout (run : List (Delivery servers)) (target : Str) : Option (Delivery servers) :=
  run.reverse.find? fun d => decide (d.target = target)

theorem lastWith_append_singleton (run : List (Delivery servers)) (d : Delivery servers)
    (key : Str) :
    lastWith (run ++ [d]) key = if d.usn = key then some d else lastWith run key := by
  rw [lastWith, List.reverse_append, List.reverse_singleton, List.singleton_append,
    List.find?_cons]
  by_cases h : d.usn = key
  · simp [h]
  · simp [h, lastWith]

theorem last_filterMap_update (run : List (Delivery servers)) (key : Str) :
    Cache.last (run.filterMap Delivery.update) key = (lastWith run key).bind Delivery.update := by
  induction run using List.reverseRecOn with
  | nil => rfl
  | append_singleton run d ih =>
    obtain ⟨u, hu, hkey, -⟩ := d.exists_update
    rw [List.filterMap_append, List.filterMap_cons, hu, List.filterMap_nil,
      Cache.last_append_singleton, ih, lastWith_append_singleton, hkey]
    by_cases h : d.usn = key
    · rw [if_pos h, if_pos h, Option.bind_some, hu]
    · rw [if_neg h, if_neg h]

/-- The last message with a USN decides what the cache holds under it. -/
theorem cacheOf_eq (run : List (Delivery servers)) (key : Str) :
    cacheOf run key = (lastWith run key).bind Delivery.entry := by
  rw [cacheOf, Cache.applyAll_eq_last, last_filterMap_update]
  cases lastWith run key with
  | none => rfl
  | some d =>
    obtain ⟨u, hu, -, hvalue⟩ := d.exists_update
    simp only [Option.bind_some, hu, hvalue]

theorem disturbs_cacheOf_iff (run : List (Delivery servers)) (d : Delivery servers) :
    Disturbs (cacheOf run) d ↔
      ∃ d', lastWith run d.usn = some d' ∧ d'.kind ≠ .byebye ∧ d'.server ≠ d.server := by
  obtain ⟨u, hu, hkey, -⟩ := d.exists_update
  constructor
  · intro hcase
    obtain ⟨u', owner, e, hu', hcache, howner⟩ := hcase
    obtain rfl : u = u' := Option.some.inj (hu.symm.trans hu')
    rw [hkey, cacheOf_eq, Option.bind_eq_some_iff] at hcache
    obtain ⟨d', hlast, hentry⟩ := hcache
    refine ⟨d', hlast, fun hbye => ?_, ?_⟩
    · rw [d'.entry_eq_none_iff.mpr hbye] at hentry
      cases hentry
    · rw [Delivery.server_of_entry hentry]
      exact howner
  · intro hcase
    obtain ⟨d', hlast, hbye, hserver⟩ := hcase
    obtain ⟨⟨owner, e⟩, hentry⟩ :=
      Option.ne_none_iff_exists'.mp fun hnone => hbye (d'.entry_eq_none_iff.mp hnone)
    refine ⟨u, owner, e, hu, ?_, ?_⟩
    · rw [hkey, cacheOf_eq, hlast]
      exact hentry
    · rw [← Delivery.server_of_entry hentry]
      exact hserver

end Runs

/-- Servers with different GUIDs never disturb each other. -/
theorem undisturbed_of_udn_ne {servers : Bool → MediaServerPP}
    (h : (servers true).udn ≠ (servers false).udn) (run : List (Delivery servers)) :
    Undisturbed run := by
  intro pre d post _ hdisturbs
  obtain ⟨d', hlast, -, hserver⟩ := (disturbs_cacheOf_iff pre d).mp hdisturbs
  have husn : d'.usn = d.usn := by simpa using List.find?_some hlast
  have hudn : (servers d'.server).udn ≠ (servers d.server).udn := by
    revert hserver
    cases d'.server <;> cases d.server
    · exact fun hne => absurd rfl hne
    · exact fun _ => h.symm
    · exact fun _ => h
    · exact fun hne => absurd rfl hne
  exact usn_ne_of_udn_ne hudn _ _ husn

def ownGuids (server : Bool) : MediaServerPP :=
  { MediaServerPP.new with udn := ⟨List.replicate 16 (if server then 1 else 0), by simp⟩ }

/-- The byebye of one server leaves the other one's entry. -/
theorem undisturbed_ownGuids :
    Undisturbed ([⟨true, .alive, rootDevice, by decide⟩, ⟨false, .byebye, rootDevice, by decide⟩] :
      List (Delivery ownGuids)) :=
  undisturbed_of_udn_ne (by decide) _

/-- The two servers that run share every USN, so a run goes well exactly when each
message follows a message of the same server about its target, or a byebye. -/
theorem undisturbed_iff (run : List (Delivery fun _ => MediaServerPP.new)) :
    Undisturbed run ↔ ∀ pre d post, run = pre ++ d :: post →
      ∀ d', lastAbout pre d.target = some d' → d'.server = d.server ∨ d'.kind = .byebye := by
  have hlast (pre : List (Delivery fun _ => MediaServerPP.new)) (target : Str) :
      lastWith pre (usn MediaServerPP.new.udnString target) = lastAbout pre target := by
    unfold lastWith lastAbout
    congr 1
    funext d
    exact decide_eq_decide.mpr (usn_injective _).eq_iff
  refine forall₄_congr fun pre d post _ => ?_
  rw [disturbs_cacheOf_iff, Delivery.usn, hlast]
  constructor
  · intro h d' hd'
    by_contra hnot
    exact h ⟨d', hd', fun hbye => hnot (Or.inr hbye), fun hserver => hnot (Or.inl hserver)⟩
  · intro h hcase
    obtain ⟨d', hd', hbye, hserver⟩ := hcase
    rcases h d' hd' with h | h
    · exact hserver h
    · exact hbye h

def announcedAndWithdrawn : List (Delivery fun _ => MediaServerPP.new) :=
  [⟨true, .alive, rootDevice, by decide⟩, ⟨false, .byebye, rootDevice, by decide⟩]

/-- The byebye of one server removes the other one's entry. -/
theorem disturbed_announcedAndWithdrawn : ¬ Undisturbed announcedAndWithdrawn := by
  intro h
  refine h [_] _ [] rfl ((disturbs_cacheOf_iff _ _).mpr ⟨_, rfl, nofun, nofun⟩)

end Upnp
end MediaServer
