/-
The ordering of client addresses: `SocketAddressComparator` as the comparator of
the map from clients to renderers.

It puts one address below another when both the IP and the port are smaller.  It
is irreflexive and transitive, but two addresses that agree in one coordinate, or
that are ordered oppositely in the two, are tied without being equal.
`addressLaws_iff` says that nothing else goes wrong.  Two addresses that the map
holds at once are never tied, so among them the laws hold, `addressLaws_clients`.
-/
import MediaServer.Search.Laws
import MediaServer.Renderers.Manager

namespace MediaServer
namespace Renderers

open Neptune Search

/-- The four laws of a map key, with `operator==` for equality. -/
abbrev AddressLaws (a b c : SocketAddress) : Prop :=
  KeyLaws socketAddressComparator SocketAddress.equal a b c

theorem apart_socketAddress_iff (a b : SocketAddress) :
    Apart socketAddressComparator a b ↔
      (a.ipAddress.asLong < b.ipAddress.asLong ∧ a.port < b.port) ∨
      (b.ipAddress.asLong < a.ipAddress.asLong ∧ b.port < a.port) := by
  rw [Apart, socketAddressComparator_iff, socketAddressComparator_iff]

/-- The comparator is lawful at three addresses exactly when the first two are the
same or one of them is smaller in both coordinates. -/
theorem addressLaws_iff (a b c : SocketAddress) :
    AddressLaws a b c ↔
      (a.ipAddress = b.ipAddress ∧ a.port = b.port) ∨
      (a.ipAddress.asLong < b.ipAddress.asLong ∧ a.port < b.port) ∨
      (b.ipAddress.asLong < a.ipAddress.asLong ∧ b.port < a.port) := by
  rw [AddressLaws, keyLaws_iff SocketAddress.equal_iff socketAddressComparator_irrefl
    socketAddressComparator_trans, apart_socketAddress_iff]
  cases a
  cases b
  rw [SocketAddress.mk.injEq]

/-- Any three addresses that the manager holds renderers for satisfy the laws, in
whatever order they are taken. -/
theorem addressLaws_clients (rm : RendererManager) :
    ∀ a ∈ rm.clients.keys, ∀ b ∈ rm.clients.keys, ∀ c ∈ rm.clients.keys, AddressLaws a b c :=
  fun _ ha _ hb c _ => rm.clients.keyLaws_keys SocketAddress.equal_iff
    socketAddressComparator_irrefl socketAddressComparator_trans ha hb c

/-- Three clients of the manager. -/
theorem addressLaws_clients_three :
    AddressLaws ⟨⟨10, 0, 0, 3⟩, 82⟩ ⟨⟨10, 0, 0, 1⟩, 80⟩ ⟨⟨10, 0, 0, 2⟩, 81⟩ :=
  addressLaws_clients
    { RendererManager.new [] with
      clients := ((SearchMap.empty.set (.scan _) ⟨⟨10, 0, 0, 1⟩, 80⟩ none).set (.scan _)
        ⟨⟨10, 0, 0, 2⟩, 81⟩ none).set (.scan _) ⟨⟨10, 0, 0, 3⟩, 82⟩ none }
    _ (by decide) _ (by decide) _ (by decide)

/-- 10.0.0.1:80 is tied with 10.0.0.1:81 and that with 10.0.0.2:81, yet the first is
below the last. -/
theorem not_addressLaws_samePort :
    ¬ AddressLaws ⟨⟨10, 0, 0, 1⟩, 80⟩ ⟨⟨10, 0, 0, 1⟩, 81⟩ ⟨⟨10, 0, 0, 2⟩, 81⟩ := by
  intro h
  have hfirst : Tied socketAddressComparator ⟨⟨10, 0, 0, 1⟩, 80⟩ ⟨⟨10, 0, 0, 1⟩, 81⟩ := by
    decide
  have hlast : Tied socketAddressComparator ⟨⟨10, 0, 0, 1⟩, 81⟩ ⟨⟨10, 0, 0, 2⟩, 81⟩ := by
    decide
  have hapart : ¬ Tied socketAddressComparator ⟨⟨10, 0, 0, 1⟩, 80⟩ ⟨⟨10, 0, 0, 2⟩, 81⟩ := by
    decide
  exact hapart (h.tied_trans hfirst hlast)

end Renderers
end MediaServer
