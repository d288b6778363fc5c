/-
The network interface that the server announces on.

`serverInterface` takes the first interface that can broadcast and is not the
loopback, else the first of the list, and keeps it for later calls.  Its test for a
list to fall back on compares the first item with the last one, as if the last one
were the end of the list, so a list with a single interface counts as empty:
`choosesInterface_iff`.
-/
import MediaServer.Machine.Trace
import MediaServer.Neptune.Address
import MediaServer.Search.Scan

namespace MediaServer

open Text Neptune Search Machine

namespace Neptune

/-- `NPT_NetworkInterface`, with the primary address of each of its addresses. -/
structure NetworkInterface where
  name : Str
  flags : UInt32
  addresses : List IpAddress
  deriving DecidableEq

namespace NetworkInterface

def flagLoopback : UInt32 := 0x01

def flagBroadcast : UInt32 := 0x04

/-- The interface has the BROADCAST flag and not the LOOPBACK flag. -/
def Usable (interface : NetworkInterface) : Prop :=
  interface.flags &&& flagBroadcast ≠ 0 ∧ interface.flags &&& flagLoopback = 0

instance : DecidablePred Usable := fun _ => inferInstanceAs (Decidable (_ ∧ _))

end NetworkInterface

/-- The position of `NPT_List::GetFirstItem`, an iterator that may be null. -/
def getFirstItem {α : Type} (items : List α) : Option Nat :=
  if items.length = 0 then none else some 0

def getLastItem {α : Type} (items : List α) : Option Nat :=
  if items.length = 0 then none else some (items.length - 1)

theorem getFirstItem_eq_getLastItem_iff {α : Type} (items : List α) :
    getFirstItem items = getLastItem items ↔ items.length ≤ 1 := by
  unfold getFirstItem getLastItem
  split
  · simp [*]
  · simp only [Option.some.injEq]
    omega

end Neptune

namespace MediaServerPP

/-- The loop of `serverInterface`. -/
def firstUsable : List NetworkInterface → Option NetworkInterface
  | [] => none
  | interface :: interfaces =>
    if interface.flags &&& NetworkInterface.flagBroadcast = 0 ∨
        interface.flags &&& NetworkInterface.flagLoopback ≠ 0 then firstUsable interfaces
    else some interface

def noInterface : Str := "No usable network interface found for UPnP multicast".toList

/-- `MediaServerPP::serverInterface` with `_serverInterface` before the call and the
interfaces that the system has: the interface or the text of the exception, and
`_serverInterface` afterwards. -/
def serverInterface (cached : Option NetworkInterface) (interfaces : List NetworkInterface) :
    Except Str NetworkInterface × Option NetworkInterface :=
  match cached with
  | some interface => (.ok interface, cached)
  | none =>
    match firstUsable interfaces with
    | some interface => (.ok interface, some interface)
    | none =>
      match interfaces with
      | first :: rest =>
        if getFirstItem (first :: rest) ≠ getLastItem (first :: rest) then (.ok first, some first)
        else (.error noInterface, none)
      -- Both iterators are null.
      | [] => (.error noInterface, none)

theorem firstUsable_eq_some_iff {interfaces : List NetworkInterface}
    {interface : NetworkInterface} :
    firstUsable interfaces = some interface ↔
      IsFirst NetworkInterface.Usable interfaces interface := by
  induction interfaces with
  | nil => exact ⟨nofun, fun h => absurd h.mem List.not_mem_nil⟩
  | cons i interfaces ih =>
    rw [firstUsable]
    by_cases h : i.Usable
    · have hskip : ¬ (i.flags &&& NetworkInterface.flagBroadcast = 0 ∨
          i.flags &&& NetworkInterface.flagLoopback ≠ 0) := by
        rw [not_or, not_not]
        exact h
      rw [if_neg hskip, isFirst_cons_of_holds h, Option.some.injEq, eq_comm]
    · have hskip : i.flags &&& NetworkInterface.flagBroadcast = 0 ∨
          i.flags &&& NetworkInterface.flagLoopback ≠ 0 := by
        rw [NetworkInterface.Usable, not_and_or, not_not] at h
        exact h
      rw [if_pos hskip, isFirst_cons_of_not h, ih]

theorem firstUsable_eq_none_iff {interfaces : List NetworkInterface} :
    firstUsable interfaces = none ↔ ∀ interface ∈ interfaces, ¬ interface.Usable := by
  constructor
  · intro h interface hmem husable
    obtain ⟨i, hi⟩ := exists_isFirst ⟨interface, hmem, husable⟩
    rw [firstUsable_eq_some_iff.mpr hi] at h
    cases h
  · intro h
    cases hfirst : firstUsable interfaces with
    | none => rfl
    | some i =>
      have hi := firstUsable_eq_some_iff.mp hfirst
      exact absurd hi.holds (h i hi.mem)

/-! ## The cases of a call -/

/-- The ways a call can go, with what it returns and what it keeps. -/
inductive Choosing (interfaces : List NetworkInterface) :
    Except Str NetworkInterface × Option NetworkInterface → Prop where
  | usable (interface : NetworkInterface)
      (h : IsFirst NetworkInterface.Usable interfaces interface) :
      Choosing interfaces (.ok interface, some interface)
  | fallback (first : NetworkInterface) (rest : List NetworkInterface)
      (hlist : interfaces = first :: rest) (hmany : 1 < interfaces.length)
      (h : ∀ interface ∈ interfaces, ¬ interface.Usable) :
      Choosing interfaces (.ok first, some first)
  | throws (hlist : interfaces.length ≤ 1)
      (h : ∀ interface ∈ interfaces, ¬ interface.Usable) :
      Choosing interfaces (.error noInterface, none)

theorem choosing (interfaces : List NetworkInterface) :
    Choosing interfaces (serverInterface none interfaces) := by
  simp only [serverInterface]
  cases hfirst : firstUsable interfaces with
  | some interface => exact .usable interface (firstUsable_eq_some_iff.mp hfirst)
  | none =>
    have hnone := firstUsable_eq_none_iff.mp hfirst
    cases interfaces with
    | nil => exact .throws (Nat.zero_le 1) hnone
    | cons first rest =>
      have hiff := getFirstItem_eq_getLastItem_iff (first :: rest)
      by_cases hsame : getFirstItem (first :: rest) = getLastItem (first :: rest)
      · simp only [hsame, ne_eq, not_true_eq_false, if_false]
        exact .throws (hiff.mp hsame) hnone
      · simp only [ne_eq, hsame, not_false_eq_true, if_true]
        exact .fallback first rest rfl (Nat.lt_of_not_le fun hle => hsame (hiff.mpr hle)) hnone

theorem serverInterface_cached (interface : NetworkInterface)
    (interfaces : List NetworkInterface) :
    serverInterface (some interface) interfaces = (.ok interface, some interface) := rfl

/-- Once there is an interface, every call returns it. -/
theorem output_of_cached {interface : NetworkInterface} {calls : List (List NetworkInterface)}
    {e : Event (Option NetworkInterface) (List NetworkInterface) (Except Str NetworkInterface)}
    (he : e ∈ trace serverInterface (some interface) calls) : e.output = .ok interface := by
  have hstep : ∀ (s : Option NetworkInterface) (interfaces : List NetworkInterface),
      s = some interface → (serverInterface s interfaces).2 = some interface := by
    intro s interfaces hs
    rw [hs, serverInterface_cached]
  rw [output_of_mem_trace he, before_invariant hstep rfl he, serverInterface_cached]

/-! ## The choice -/

/-- What a caller relies on when no interface is cached. -/
structure ChoosesInterface (interfaces : List NetworkInterface) : Prop where
  usable : ∀ interface, IsFirst NetworkInterface.Usable interfaces interface →
    (serverInterface none interfaces).1 = .ok interface
  fallback : ∀ first rest, interfaces = first :: rest →
    (∀ interface ∈ interfaces, ¬ interface.Usable) →
      (serverInterface none interfaces).1 = .ok first
  throws : (∃ what, (serverInterface none interfaces).1 = .error what) ↔ interfaces = []
  afresh : ∀ what, (serverInterface none interfaces).1 = .error what →
    (serverInterface none interfaces).2 = none
  same : ∀ interface calls, (serverInterface none interfaces).1 = .ok interface →
    ∀ e ∈ trace serverInterface (serverInterface none interfaces).2 calls,
      e.output = .ok interface

/-- A call that returns an interface keeps what a caller relies on, if it is the right
one. -/
theorem choosesInterface_of_ok {interfaces : List NetworkInterface}
    {interface : NetworkInterface}
    (hok : serverInterface none interfaces = (.ok interface, some interface))
    (hne : interfaces ≠ [])
    (husable : ∀ i, IsFirst NetworkInterface.Usable interfaces i → i = interface)
    (hfallback : ∀ first rest, interfaces = first :: rest →
      (∀ i ∈ interfaces, ¬ i.Usable) → first = interface) :
    ChoosesInterface interfaces where
  usable i hi := by rw [hok, husable i hi]
  fallback first rest hlist hnone := by rw [hok, hfallback first rest hlist hnone]
  throws := by
    rw [hok]
    refine iff_of_false (fun hcase => ?_) hne
    obtain ⟨what, h⟩ := hcase
    cases h
  afresh what h := by
    rw [hok] at h
    cases h
  same i calls h e he := by
    rw [hok] at h he
    cases h
    exact output_of_cached he

theorem choosesInterface_nil : ChoosesInterface [] where
  usable i hi := absurd hi.mem List.not_mem_nil
  fallback first rest hlist := absurd hlist.symm (List.cons_ne_nil first rest)
  throws := iff_of_true ⟨noInterface, rfl⟩ rfl
  afresh _ _ := rfl
  same i calls h := by cases h

/-- The choice is right exactly when the list is not a single interface that is not
usable. -/
theorem choosesInterface_iff (interfaces : List NetworkInterface) :
    ChoosesInterface interfaces ↔ ∀ interface, interfaces = [interface] → interface.Usable := by
  have hcases := choosing interfaces
  generalize houtcome : serverInterface none interfaces = outcome at hcases
  constructor
  · intro h interface hlist
    by_contra hunusable
    have hnone : ∀ i ∈ interfaces, ¬ i.Usable := by
      rw [hlist]
      simpa using hunusable
    have hfirst := h.fallback interface [] hlist hnone
    rw [houtcome] at hfirst
    cases hcases with
    | usable i hi => exact hnone i hi.mem hi.holds
    | fallback first rest hlist' hmany =>
      rw [hlist] at hmany
      exact absurd hmany (Nat.lt_irrefl 1)
    | throws => cases hfirst
  · intro h
    cases hcases with
    | usable i hi =>
      exact choosesInterface_of_ok houtcome (List.ne_nil_of_mem hi.mem)
        (fun j hj => hj.unique hi) fun _ _ _ hnone => absurd hi.holds (hnone i hi.mem)
    | fallback first rest hlist hmany hnone =>
      refine choosesInterface_of_ok houtcome (hlist ▸ List.cons_ne_nil first rest)
        (fun j hj => absurd hj.holds (hnone j hj.mem)) fun i is hlist' _ => ?_
      rw [hlist] at hlist'
      exact (List.cons.inj hlist').1.symm
    | throws hfew hnone =>
      match interfaces with
      | [] => exact choosesInterface_nil
      | [i] => exact absurd (h i rfl) (hnone i List.mem_cons_self)

/-- The only interface is the loopback: the call throws. -/
theorem not_choosesInterface_loopback :
    ¬ ChoosesInterface [⟨"lo".toList, 0x01, [⟨127, 0, 0, 1⟩]⟩] := by
  intro h
  cases h.throws.mp ⟨noInterface, rfl⟩

end MediaServerPP
end MediaServer
