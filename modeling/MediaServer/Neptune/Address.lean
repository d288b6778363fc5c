/-
Addresses: `NPT_IpAddress` and `NPT_SocketAddress`.

An address is written in dotted form by `toString` and read back by `parse`,
which goes through the characters with an accumulator for the current fragment.
`parse_toString` says that reading inverts writing for every address, which is
what lets a reply reach the host a datagram came from.
-/
import MediaServer.Neptune.Strings

namespace MediaServer
namespace Neptune

open Text

/-- `NPT_IpAddress`, the four bytes of `m_Address`. -/
structure IpAddress where
  a : UInt8
  b : UInt8
  c : UInt8
  d : UInt8
  deriving DecidableEq

namespace IpAddress

/-- The default constructor, also `NPT_IpAddress::Any`. -/
def any : IpAddress := ⟨0, 0, 0, 0⟩

def asLong (ip : IpAddress) : Nat :=
  ip.a.toNat <<< 24 ||| ip.b.toNat <<< 16 ||| ip.c.toNat <<< 8 ||| ip.d.toNat

/-- `NPT_String::FromInteger` on a byte. -/
def fromInteger (n : UInt8) : Str := Nat.toDigits 10 n.toNat

def toString (ip : IpAddress) : Str :=
  fromInteger ip.a ++ '.' :: (fromInteger ip.b ++ '.' ::
    (fromInteger ip.c ++ '.' :: fromInteger ip.d))

/-- The loop of `NPT_IpAddress::Parse`: the fragments read so far, the
accumulator and `fragment_empty`.  A fourth fragment that a dot ends leaves the
loop with `fragment_empty` set, which the check after the loop rejects. -/
def parseFragments : Str → List UInt8 → Nat → Bool → Option (List UInt8)
  | [], read, accumulator, fragmentEmpty =>
    if fragmentEmpty then none else some (read ++ [UInt8.ofNat accumulator])
  | name :: rest, read, accumulator, fragmentEmpty =>
    if name = '.' then
      if fragmentEmpty then none
      else if read.length = 3 then none
      else parseFragments rest (read ++ [UInt8.ofNat accumulator]) 0 true
    else if '0' ≤ name ∧ name ≤ '9' then
      let accumulator := accumulator * 10 + (name.toNat - '0'.toNat)
      if 255 < accumulator then none else parseFragments rest read accumulator false
    else none

def parse? (name : Str) : Option IpAddress :=
  match parseFragments (cString name) [] 0 true with
  | some [a, b, c, d] => some ⟨a, b, c, d⟩
  | _ => none

/-- The address that `NPT_IpAddress::Parse` leaves behind.  It clears the bytes
before it reads, so a failure leaves `any`. -/
def parse (name : Str) : IpAddress := (parse? name).getD any

/-! ## Reading inverts writing -/

theorem toDigits_byte : ∀ n < 256, Nat.toDigits 10 n =
    if n < 10 then [Nat.digitChar n]
    else if n < 100 then [Nat.digitChar (n / 10), Nat.digitChar (n % 10)]
    else [Nat.digitChar (n / 100), Nat.digitChar (n / 10 % 10), Nat.digitChar (n % 10)] := by
  decide +kernel

theorem digitChar_spec : ∀ n < 10, Nat.digitChar n ≠ '.' ∧ Nat.digitChar n ≠ '\x00' ∧
    ('0' ≤ Nat.digitChar n ∧ Nat.digitChar n ≤ '9') ∧
      (Nat.digitChar n).toNat - '0'.toNat = n := by
  decide

theorem parseFragments_digit {n accumulator : Nat} (hn : n < 10)
    (hacc : accumulator * 10 + n ≤ 255) (rest : Str) (read : List UInt8) (e : Bool) :
    parseFragments (Nat.digitChar n :: rest) read accumulator e =
      parseFragments rest read (accumulator * 10 + n) false := by
  obtain ⟨hdot, -, hdigit, hval⟩ := digitChar_spec n hn
  rw [parseFragments, if_neg hdot, if_pos hdigit]
  simp only [hval, Nat.not_lt.mpr hacc, if_false]

theorem parseFragments_byte (n : UInt8) (rest : Str) (read : List UInt8) :
    parseFragments (fromInteger n ++ rest) read 0 true =
      parseFragments rest read n.toNat false := by
  have hn : n.toNat < 256 := n.toNat_lt
  rw [fromInteger, toDigits_byte n.toNat hn]
  split
  · rw [List.singleton_append, parseFragments_digit (by omega) (by omega), Nat.zero_mul,
      Nat.zero_add]
  · split
    · rw [List.cons_append, List.singleton_append, parseFragments_digit (by omega) (by omega),
        parseFragments_digit (by omega) (by omega)]
      congr 1
      omega
    · rw [List.cons_append, List.cons_append, List.singleton_append,
        parseFragments_digit (by omega) (by omega), parseFragments_digit (by omega) (by omega),
        parseFragments_digit (by omega) (by omega)]
      congr 1
      omega

theorem parseFragments_dot {read : List UInt8} (n : UInt8) (rest : Str)
    (hread : read.length ≠ 3) :
    parseFragments ('.' :: rest) read n.toNat false =
      parseFragments rest (read ++ [n]) 0 true := by
  rw [parseFragments, if_pos rfl, if_neg Bool.false_ne_true, if_neg hread, UInt8.ofNat_toNat]

theorem nul_notMem_fromInteger (n : UInt8) : '\x00' ∉ fromInteger n := by
  rw [fromInteger, toDigits_byte n.toNat n.toNat_lt]
  have hn : n.toNat < 256 := n.toNat_lt
  have h (k : Nat) (hk : k < 10) : '\x00' ≠ Nat.digitChar k :=
    fun e => (digitChar_spec k hk).2.1 e.symm
  split
  · simp [h _ (show n.toNat < 10 by assumption)]
  · split
    · simp [h (n.toNat / 10) (by omega), h (n.toNat % 10) (by omega)]
    · simp [h (n.toNat / 100) (by omega), h (n.toNat / 10 % 10) (by omega),
        h (n.toNat % 10) (by omega)]

theorem cString_toString (ip : IpAddress) : cString ip.toString = ip.toString := by
  apply cString_eq_self
  simp [toString, nul_notMem_fromInteger]

theorem parse?_toString (ip : IpAddress) : parse? ip.toString = some ip := by
  have hlast (read : List UInt8) : parseFragments (fromInteger ip.d) read 0 true =
      some (read ++ [ip.d]) := by
    have h := parseFragments_byte ip.d [] read
    rw [List.append_nil] at h
    rw [h, parseFragments, if_neg Bool.false_ne_true, UInt8.ofNat_toNat]
  have h : parseFragments ip.toString [] 0 true = some [ip.a, ip.b, ip.c, ip.d] := by
    rw [toString, parseFragments_byte, parseFragments_dot _ _ (by simp),
      parseFragments_byte, parseFragments_dot _ _ (by simp),
      parseFragments_byte, parseFragments_dot _ _ (by simp), hlast]
    rfl
  rw [parse?, cString_toString, h]

/-- An address written and read back is the same address. -/
theorem parse_toString (ip : IpAddress) : parse ip.toString = ip := by
  rw [parse, parse?_toString]
  rfl

/-! ## The address as a number -/

theorem asLong_eq (ip : IpAddress) :
    ip.asLong = ((ip.a.toNat * 256 + ip.b.toNat) * 256 + ip.c.toNat) * 256 + ip.d.toNat := by
  have hjoin (n : Nat) (byte : UInt8) : n <<< 8 ||| byte.toNat = n * 256 + byte.toNat := by
    rw [← Nat.shiftLeft_add_eq_or_of_lt byte.toNat_lt, Nat.shiftLeft_eq]
  have hnested : ip.asLong =
      ((ip.a.toNat <<< 8 ||| ip.b.toNat) <<< 8 ||| ip.c.toNat) <<< 8 ||| ip.d.toNat := by
    rw [Nat.shiftLeft_or_distrib, Nat.shiftLeft_or_distrib, Nat.shiftLeft_or_distrib]
    simp only [← Nat.shiftLeft_add]
    rfl
  rw [hnested, hjoin, hjoin, hjoin]

theorem asLong_injective : Function.Injective asLong := by
  intro ip ip' h
  rw [asLong_eq, asLong_eq] at h
  have hc := ip.c.toNat_lt
  have hc' := ip'.c.toNat_lt
  have hb := ip.b.toNat_lt
  have hb' := ip'.b.toNat_lt
  have hd := ip.d.toNat_lt
  have hd' := ip'.d.toNat_lt
  cases ip
  cases ip'
  simp only [mk.injEq, ← UInt8.toNat_inj]
  dsimp only at *
  omega

end IpAddress

/-- `NPT_SocketAddress`.  A port is an `unsigned int`. -/
structure SocketAddress where
  ipAddress : IpAddress
  port : UInt32
  deriving DecidableEq

namespace SocketAddress

/-- `NPT_SocketAddress::operator==`. -/
def equal (address other : SocketAddress) : Bool :=
  other.ipAddress.asLong == address.ipAddress.asLong && other.port == address.port

theorem equal_iff (a b : SocketAddress) : a.equal b = true ↔ a = b := by
  rw [equal, Bool.and_eq_true, beq_iff_eq, beq_iff_eq]
  constructor
  · intro h
    obtain ⟨hip, hport⟩ := h
    cases a
    cases b
    rw [mk.injEq]
    exact ⟨(IpAddress.asLong_injective hip).symm, hport.symm⟩
  · intro h
    subst h
    exact ⟨rfl, rfl⟩

end SocketAddress

end Neptune
end MediaServer
