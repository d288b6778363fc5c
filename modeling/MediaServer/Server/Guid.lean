/-
GUIDs as crossguid has them: sixteen bytes, written by `operator<<` as lower
case hexadecimal in five groups.

The text of a GUID has 36 characters, each a hexadecimal digit or a dash, so it
can stand in a header line and can be compared with any other target by its
characters alone.  Different GUIDs have different texts.
-/
import MediaServer.Neptune.Headers

namespace MediaServer

open Text Neptune

structure Guid where
  bytes : List UInt8
  size : bytes.length = 16
  deriving DecidableEq

namespace Guid

/-- `Guid::Guid()`, sixteen zero bytes. -/
def empty : Guid := ⟨List.replicate 16 0, rfl⟩

/-- One byte under `hex << setfill('0') << setw(2)`. -/
def hexByte (b : UInt8) : Str :=
  [Nat.digitChar (b.toNat / 16), Nat.digitChar (b.toNat % 16)]

def group (g : Guid) (i n : Nat) : Str := ((g.bytes.drop i).take n).flatMap hexByte

/-- `operator<<`. -/
def toString (g : Guid) : Str :=
  g.group 0 4 ++ "-".toList ++ g.group 4 2 ++ "-".toList ++ g.group 6 2 ++ "-".toList ++
    g.group 8 2 ++ "-".toList ++ g.group 10 6

/-! ## The characters -/

def IsDigit (c : Char) : Prop := ∃ d < 16, c = Nat.digitChar d

theorem isDigit_of_mem_group {g : Guid} {i n : Nat} {c : Char} (hc : c ∈ g.group i n) :
    IsDigit c := by
  obtain ⟨b, -, hc⟩ := List.mem_flatMap.mp hc
  have hb : b.toNat < 256 := b.toNat_lt
  rcases List.mem_cons.mp hc with rfl | hc
  · exact ⟨b.toNat / 16, by omega, rfl⟩
  · exact ⟨b.toNat % 16, by omega, List.mem_singleton.mp hc⟩

theorem isDigit_or_dash_of_mem {g : Guid} {c : Char} (hc : c ∈ g.toString) :
    IsDigit c ∨ c = '-' := by
  have hdash : "-".toList = ['-'] := rfl
  simp only [toString, hdash, List.mem_append, List.mem_singleton] at hc
  rcases hc with (((((((hc | hc) | hc) | hc) | hc) | hc) | hc) | hc) | hc
  all_goals first
    | exact Or.inr hc
    | exact Or.inl (isDigit_of_mem_group hc)

/-- What holds of the sixteen digits and of the dash holds of every character. -/
theorem forall_mem_toString {P : Char → Prop} (hdigits : ∀ d < 16, P (Nat.digitChar d))
    (hdash : P '-') (g : Guid) : ∀ c ∈ g.toString, P c := by
  intro c hc
  rcases isDigit_or_dash_of_mem hc with ⟨d, hd, rfl⟩ | rfl
  · exact hdigits d hd
  · exact hdash

theorem not_mem_toString {x : Char} (hdigits : ∀ d < 16, Nat.digitChar d ≠ x) (hdash : '-' ≠ x)
    (g : Guid) : x ∉ g.toString := fun hx =>
  forall_mem_toString (P := (· ≠ x)) hdigits hdash g x hx rfl

theorem fieldText_toString (g : Guid) : FieldText g.toString where
  cr := not_mem_toString (by decide) (by decide) g
  lf := not_mem_toString (by decide) (by decide) g
  nul := not_mem_toString (by decide) (by decide) g
  head c hc := forall_mem_toString (P := (Headers.isBlank · = false)) (by decide) (by decide) g c
    (List.mem_of_mem_head? hc)
  last c hc := forall_mem_toString (P := (Headers.isBlank · = false)) (by decide) (by decide) g c
    (List.mem_of_getLast? hc)

/-! ## The length -/

theorem length_hexBytes (bytes : List UInt8) :
    (bytes.flatMap hexByte).length = 2 * bytes.length := by
  induction bytes with
  | nil => rfl
  | cons b bytes ih =>
    rw [List.flatMap_cons, List.length_append, ih, List.length_cons]
    show 2 + 2 * bytes.length = 2 * (bytes.length + 1)
    omega

theorem length_group (g : Guid) {i n : Nat} (h : i + n ≤ 16) : (g.group i n).length = 2 * n := by
  rw [group, length_hexBytes, List.length_take, List.length_drop, g.size]
  omega

theorem length_toString (g : Guid) : g.toString.length = 36 := by
  have hdash : "-".toList.length = 1 := rfl
  simp only [toString, List.length_append, hdash, length_group, Nat.reduceAdd, Nat.reduceMul,
    Nat.reduceLeDiff]

/-! ## Different GUIDs have different texts -/

theorem hexByte_injective : Function.Injective hexByte := by
  have hdigit : ∀ d < 16, ∀ e < 16, Nat.digitChar d = Nat.digitChar e → d = e := by decide
  intro a b h
  have ha : a.toNat < 256 := a.toNat_lt
  have hb : b.toNat < 256 := b.toNat_lt
  obtain ⟨hhigh, hlow⟩ : Nat.digitChar (a.toNat / 16) = Nat.digitChar (b.toNat / 16) ∧
      Nat.digitChar (a.toNat % 16) = Nat.digitChar (b.toNat % 16) := by
    simpa [hexByte] using h
  have h₁ := hdigit _ (by omega) _ (by omega) hhigh
  have h₂ := hdigit _ (by omega) _ (by omega) hlow
  exact UInt8.toNat_inj.mp (by omega)

theorem hexBytes_injective {xs ys : List UInt8} (h : xs.flatMap hexByte = ys.flatMap hexByte) :
    xs = ys := by
  induction xs generalizing ys with
  | nil =>
    have hlen := congrArg List.length h
    rw [length_hexBytes, length_hexBytes, List.length_nil] at hlen
    exact (List.eq_nil_of_length_eq_zero (by omega)).symm
  | cons x xs ih =>
    cases ys with
    | nil => cases h
    | cons y ys =>
      rw [List.flatMap_cons, List.flatMap_cons] at h
      obtain ⟨hhead, htail⟩ := List.append_inj h rfl
      rw [hexByte_injective hhead, ih htail]

theorem toString_injective : Function.Injective toString := by
  intro g g' h
  -- The dashes stand at the same places, so the groups are equal one by one.
  have hgroup (i n : Nat) (hi : i + n ≤ 16) : (g.group i n).length = (g'.group i n).length := by
    rw [length_group g hi, length_group g' hi]
  simp only [toString, List.append_assoc] at h
  obtain ⟨h₀, h⟩ := List.append_inj h (hgroup 0 4 (by decide))
  obtain ⟨h₁, h⟩ := List.append_inj (List.append_cancel_left h) (hgroup 4 2 (by decide))
  obtain ⟨h₂, h⟩ := List.append_inj (List.append_cancel_left h) (hgroup 6 2 (by decide))
  obtain ⟨h₃, h⟩ := List.append_inj (List.append_cancel_left h) (hgroup 8 2 (by decide))
  have h₄ := List.append_cancel_left h
  have hsplit (g : Guid) : g.bytes = g.bytes.take 4 ++ ((g.bytes.drop 4).take 2 ++
      ((g.bytes.drop 6).take 2 ++ ((g.bytes.drop 8).take 2 ++ (g.bytes.drop 10).take 6))) := by
    have hlast : (g.bytes.drop 10).take 6 = g.bytes.drop 10 :=
      List.take_of_length_le (by rw [List.length_drop, g.size])
    have hstep (i n : Nat) : (g.bytes.drop i).take n ++ g.bytes.drop (i + n) = g.bytes.drop i := by
      rw [← List.drop_drop]
      exact List.take_append_drop n _
    rw [hlast, hstep 8 2, hstep 6 2, hstep 4 2, List.take_append_drop]
  have hbytes : g.bytes = g'.bytes := by
    rw [hsplit g, hsplit g', hexBytes_injective h₁, hexBytes_injective h₂, hexBytes_injective h₃,
      hexBytes_injective h₄]
    exact congrArg (· ++ _) (hexBytes_injective h₀)
  cases g
  cases g'
  cases hbytes
  rfl

example : empty.toString = "00000000-0000-0000-0000-000000000000".toList := by decide

end Guid
end MediaServer
