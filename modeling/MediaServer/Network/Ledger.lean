/-
What the SSDP side holds on to.

The ledger has the sockets that `getNewMulticastSocket` opened and the buffers that
the listener took, both until they are released.  A socket is closed by the
destructor of its object, and `sendAlive` and `sendByeBye` keep no pointer that
anything could delete.  A receive buffer is given to an `NPT_DataBuffer`, which
does not free a buffer that is not its own.  So every step that acquires something
keeps it, and the ledger stays empty only in runs that acquire nothing:
`releasesAll_iff`.
-/
import MediaServer.Machine.Trace
import MediaServer.Network.Listener
import MediaServer.Network.Multicast

namespace MediaServer
namespace Upnp

open Text Neptune Machine

/-! ## Buffers -/

structure Buffer where
  location : Nat
  size : Nat
  deriving DecidableEq

/-- `NPT_DataBuffer`, with the buffer that it uses. -/
structure DataBuffer where
  bufferIsLocal : Bool
  buffer : Option Buffer

namespace DataBuffer

/-- The default constructor. -/
def new : DataBuffer := { bufferIsLocal := true, buffer := none }

def setBuffer (_ : DataBuffer) (buffer : Buffer) : DataBuffer :=
  { bufferIsLocal := false, buffer := some buffer }

/-- `NPT_DataBuffer::~NPT_DataBuffer`, on the buffers that are taken. -/
def destroy (packet : DataBuffer) (buffers : List Buffer) : List Buffer :=
  match packet.buffer with
  | some buffer => if packet.bufferIsLocal then buffers.erase buffer else buffers
  | none => buffers

theorem destroy_setBuffer (packet : DataBuffer) (buffer : Buffer) (buffers : List Buffer) :
    (packet.setBuffer buffer).destroy buffers = buffers := rfl

end DataBuffer

/-! ## Steps -/

structure Ledger where
  sockets : List MulticastSocket
  buffers : List Buffer
  deriving DecidableEq

def Ledger.empty : Ledger := { sockets := [], buffers := [] }

structure Resources where
  serverInterface : Option NetworkInterface
  allocated : Nat
  ledger : Ledger

/-- A step of the server, with the interfaces that the system has or what the
listener receives.  A failed `Receive` gives no datagram. -/
inductive Activity where
  | sendAlive (interfaces : List NetworkInterface)
  | sendByeBye (interfaces : List NetworkInterface)
  | receive (clock : Nat → TimeStamp) (packet : Option (SocketAddress × Str))

namespace Resources

def start (serverInterface : Option NetworkInterface) : Resources :=
  { serverInterface := serverInterface, allocated := 0, ledger := .empty }

/-- What `sendAlive` and `sendByeBye` have in common: a new socket, which they leave
open, and the datagrams sent from it. -/
def send (interfaces : List NetworkInterface) (datagrams : List Datagram) (s : Resources) :
    Except Str (List Datagram) × Resources :=
  match getNewMulticastSocket s.serverInterface interfaces with
  | (.error what, serverInterface) => (.error what, { s with serverInterface := serverInterface })
  | (.ok socket, serverInterface) =>
    (.ok datagrams,
      { s with
        serverInterface := serverInterface
        ledger := { s.ledger with sockets := socket :: s.ledger.sockets } })

/-- One round of the listener's inner loop. -/
def listen (gMS : MediaServerPP) (clock : Nat → TimeStamp) (packet : Option (SocketAddress × Str))
    (s : Resources) : Except Str (List Datagram) × Resources :=
  let buf : Buffer := { location := s.allocated, size := 1024 }
  let receivePacket := DataBuffer.new.setBuffer buf
  let replies :=
    match packet with
    | some (address, datagram) => Upnp.receive gMS clock address datagram
    | none => []
  (.ok replies,
    { s with
      allocated := s.allocated + 1
      ledger := { s.ledger with buffers := receivePacket.destroy (buf :: s.ledger.buffers) } })

def step (gMS : MediaServerPP) (s : Resources) :
    Activity → Except Str (List Datagram) × Resources
  | .sendAlive interfaces => s.send interfaces (Upnp.sendAlive gMS)
  | .sendByeBye interfaces => s.send interfaces (Upnp.sendByeBye gMS)
  | .receive clock packet => s.listen gMS clock packet

/-! ## What a step acquires -/

/-- The step acquires nothing: it sends, and there is no address to send from. -/
def AcquiresNothing (s : Resources) : Activity → Prop
  | .sendAlive interfaces => Addressless s.serverInterface interfaces
  | .sendByeBye interfaces => Addressless s.serverInterface interfaces
  | .receive _ _ => False

theorem send_ledger_iff (s : Resources) (interfaces : List NetworkInterface)
    (datagrams : List Datagram) :
    (s.send interfaces datagrams).2.ledger = s.ledger ↔
      Addressless s.serverInterface interfaces := by
  rw [← getNewMulticastSocket_error_iff, send]
  rcases getNewMulticastSocket s.serverInterface interfaces with ⟨what | socket, cached⟩
  · exact iff_of_true rfl ⟨what, rfl⟩
  · refine iff_of_false (fun h => ?_) fun hcase => ?_
    · exact absurd (congrArg Ledger.sockets h) (List.cons_ne_self socket _)
    · obtain ⟨what, h⟩ := hcase
      cases h

theorem step_ledger_iff (gMS : MediaServerPP) (s : Resources) (i : Activity) :
    (s.step gMS i).2.ledger = s.ledger ↔ s.AcquiresNothing i := by
  cases i with
  | sendAlive interfaces => exact send_ledger_iff s interfaces _
  | sendByeBye interfaces => exact send_ledger_iff s interfaces _
  | receive clock packet =>
    have hkept : (s.step gMS (.receive clock packet)).2.ledger.buffers =
        ⟨s.allocated, 1024⟩ :: s.ledger.buffers :=
      DataBuffer.destroy_setBuffer .new ⟨s.allocated, 1024⟩ _
    refine iff_of_false (fun h => ?_) id
    rw [h] at hkept
    exact List.cons_ne_self _ _ hkept.symm

/-! ## Runs -/

/-- After each step of the run the ledger is empty again. -/
def ReleasesAll (gMS : MediaServerPP) (serverInterface : Option NetworkInterface)
    (steps : List Activity) : Prop :=
  ∀ done, done <+: steps → (final (step gMS) (start serverInterface) done).ledger = .empty

theorem releasesAll_iff (gMS : MediaServerPP) (serverInterface : Option NetworkInterface)
    (steps : List Activity) :
    ReleasesAll gMS serverInterface steps ↔
      ∀ e ∈ trace (step gMS) (start serverInterface) steps, e.before.AcquiresNothing e.input := by
  have hstep : ∀ (s : Resources) (i : Activity), s.ledger = .empty →
      ((step gMS s i).2.ledger = .empty ↔ s.AcquiresNothing i) := by
    intro s i hs
    rw [← step_ledger_iff gMS, hs]
  exact forall_prefix_iff hstep rfl steps

/-- One round of announcements leaves its socket open. -/
theorem not_releasesAll_sendAlive :
    ¬ ReleasesAll .new none [.sendAlive [ethernet]] := by
  intro h
  have hledger := h [.sendAlive [ethernet]] (List.prefix_refl _)
  cases congrArg Ledger.sockets hledger

end Resources
end Upnp
end MediaServer
