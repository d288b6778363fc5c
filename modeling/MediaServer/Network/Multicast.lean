/-
The sockets that announcements are sent from.

`getNewMulticastSocket` needs an address, and asks for the interface without
saying so: `serverInterface` chooses by flags alone, and keeps its choice.  An
interface without an address that stands before a good one makes the call throw,
and `announces_iff` says that nothing else does when there is a good one.
-/
import MediaServer.Server.Interface

namespace MediaServer
namespace Upnp

open Text Neptune Search

/-- `NPT_UdpMulticastSocket`, with the address that it is bound to. -/
structure MulticastSocket where
  localAddress : SocketAddress
  timeToLive : Nat
  deriving DecidableEq

def noAddresses : Str := "No usable addresses found for UPnP multicast".toList

/-- `Server::getNewMulticastSocket`: the socket or the text of the exception, and
the interface that is kept. -/
def getNewMulticastSocket (cached : Option NetworkInterface)
    (interfaces : List NetworkInterface) :
    Except Str MulticastSocket × Option NetworkInterface :=
  match MediaServerPP.serverInterface cached interfaces with
  | (.error what, cached) => (.error what, cached)
  | (.ok serverInterface, cached) =>
    match serverInterface.addresses with
    | [] => (.error noAddresses, cached)
    | address :: _ => (.ok { localAddress := ⟨address, 0⟩, timeToLive := 32 }, cached)

/-- The interface that the call is given, if any, has no address. -/
def Addressless (cached : Option NetworkInterface) (interfaces : List NetworkInterface) : Prop :=
  ∀ interface, (MediaServerPP.serverInterface cached interfaces).1 = .ok interface →
    interface.addresses = []

/-- A call throws exactly when the interface has no address or there is none, and it
makes a socket bound to the first address otherwise. -/
theorem getNewMulticastSocket_cases (cached : Option NetworkInterface)
    (interfaces : List NetworkInterface) :
    (Addressless cached interfaces ∧
      ∃ what, (getNewMulticastSocket cached interfaces).1 = .error what) ∨
    ∃ interface address addresses,
      (MediaServerPP.serverInterface cached interfaces).1 = .ok interface ∧
        interface.addresses = address :: addresses ∧
        (getNewMulticastSocket cached interfaces).1 = .ok ⟨⟨address, 0⟩, 32⟩ := by
  unfold getNewMulticastSocket Addressless
  rcases MediaServerPP.serverInterface cached interfaces with ⟨what | interface, cached'⟩
  · exact Or.inl ⟨nofun, what, rfl⟩
  · cases haddresses : interface.addresses with
    | nil =>
      refine Or.inl ⟨fun i hi => ?_, noAddresses, ?_⟩
      · cases hi
        exact haddresses
      · simp only [haddresses]
    | cons address addresses =>
      refine Or.inr ⟨interface, address, addresses, rfl, haddresses, ?_⟩
      simp only [haddresses]

theorem getNewMulticastSocket_error_iff (cached : Option NetworkInterface)
    (interfaces : List NetworkInterface) :
    (∃ what, (getNewMulticastSocket cached interfaces).1 = .error what) ↔
      Addressless cached interfaces := by
  rcases getNewMulticastSocket_cases cached interfaces with
    ⟨hnone, hthrows⟩ | ⟨i, address, addresses, hi, haddresses, hsocket⟩
  · exact iff_of_true hthrows hnone
  · refine iff_of_false (fun hcase => ?_) fun h => ?_
    · obtain ⟨what, hthrows⟩ := hcase
      rw [hsocket] at hthrows
      cases hthrows
    · rw [h i hi] at haddresses
      cases haddresses

/-! ## Announcing -/

/-- With no interface cached the call returns a socket, and the socket is bound to
the first address of a usable interface. -/
def Announces (interfaces : List NetworkInterface) : Prop :=
  ∃ socket, (getNewMulticastSocket none interfaces).1 = .ok socket ∧
    ∃ interface ∈ interfaces, interface.Usable ∧
      ∃ address, interface.addresses.head? = some address ∧
        socket.localAddress = ⟨address, 0⟩

theorem announces_iff (interfaces : List NetworkInterface)
    (h : ∃ interface ∈ interfaces, interface.Usable ∧ interface.addresses ≠ []) :
    Announces interfaces ↔
      ∀ interface, IsFirst NetworkInterface.Usable interfaces interface →
        interface.addresses ≠ [] := by
  obtain ⟨good, hgood, husable, -⟩ := h
  obtain ⟨chosen, hchosen⟩ := exists_isFirst ⟨good, hgood, husable⟩
  have hinterface : (MediaServerPP.serverInterface none interfaces).1 = .ok chosen := by
    simp only [MediaServerPP.serverInterface, MediaServerPP.firstUsable_eq_some_iff.mpr hchosen]
  have hunique : (∀ i, IsFirst NetworkInterface.Usable interfaces i → i.addresses ≠ []) ↔
      chosen.addresses ≠ [] :=
    ⟨fun hall => hall chosen hchosen, fun hne i hi => hi.unique hchosen ▸ hne⟩
  rw [hunique]
  rcases getNewMulticastSocket_cases none interfaces with
    ⟨hnone, what, hthrows⟩ | ⟨i, address, addresses, hi, haddresses, hsocket⟩
  · refine iff_of_false (fun hcase => ?_) fun hne => hne (hnone chosen hinterface)
    obtain ⟨socket, hok, -⟩ := hcase
    rw [hthrows] at hok
    cases hok
  · rw [hinterface] at hi
    cases hi
    refine iff_of_true ⟨_, hsocket, chosen, hchosen.mem, hchosen.holds, address, ?_, rfl⟩ ?_
    · rw [haddresses]
      rfl
    · rw [haddresses]
      exact List.cons_ne_nil _ _

def ethernet : NetworkInterface := ⟨"eth0".toList, 0x0c, [⟨10, 0, 0, 1⟩]⟩

def loopback : NetworkInterface := ⟨"lo".toList, 0x01, [⟨127, 0, 0, 1⟩]⟩

def unplugged : NetworkInterface := ⟨"wlan0".toList, 0x0c, []⟩

theorem announces_ethernet : Announces [loopback, ethernet] := by
  refine (announces_iff [loopback, ethernet] ⟨ethernet, by decide, by decide, by decide⟩).mpr ?_
  intro i hi
  rw [isFirst_cons_of_not (by decide), isFirst_cons_of_holds (by decide)] at hi
  rw [hi]
  decide

/-- An interface without an address stands before one that has an address. -/
theorem not_announces_unplugged : ¬ Announces [unplugged, ethernet] := by
  intro h
  obtain ⟨socket, hok, -⟩ := h
  cases hok

end Upnp
end MediaServer
