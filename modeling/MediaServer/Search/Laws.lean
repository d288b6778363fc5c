/-
The laws of a comparator for map keys.

A map that compares its keys by `lt` needs a strict weak ordering, and it tells
two keys apart only when tied keys are equal keys.  `KeyLaws` are these four laws
at three keys.  For a comparator that is irreflexive and transitive the other two
come down to one condition on the first two keys, `keyLaws_iff`.

The keys that a `SearchMap` holds at once always satisfy the laws,
`SearchMap.keyLaws_keys`.  Where they fail, one of the keys is only looked up.
-/
import MediaServer.Search.Map

namespace MediaServer
namespace Search

variable {α β : Type}

/-- `equal` is the equality of keys that the program uses. -/
structure KeyLaws (lt equal : α → α → Bool) (a b c : α) : Prop where
  irrefl : lt a a = false
  trans : lt a b = true → lt b c = true → lt a c = true
  tied_trans : Tied lt a b → Tied lt b c → Tied lt a c
  tied_iff : Tied lt a b ↔ equal a b = true

section Laws

variable {lt equal : α → α → Bool} (hequal : ∀ a b, equal a b = true ↔ a = b)
  (hirr : ∀ a, lt a a = false)
  (htrans : ∀ a b c, lt a b = true → lt b c = true → lt a c = true)

include hequal hirr htrans

theorem keyLaws_iff (a b c : α) : KeyLaws lt equal a b c ↔ a = b ∨ Apart lt a b := by
  constructor
  · intro h
    by_cases htied : Tied lt a b
    · exact .inl ((hequal a b).mp (h.tied_iff.mp htied))
    · exact .inr (not_tied.mp htied)
  · intro h
    rcases h with rfl | hapart
    · refine ⟨hirr a, htrans a a c, fun _ hac => hac, ?_⟩
      rw [hequal]
      exact ⟨fun _ => rfl, fun _ => ⟨hirr a, hirr a⟩⟩
    · have hnot : ¬ Tied lt a b := not_tied.mpr hapart
      refine ⟨hirr a, htrans a b c, fun htied => absurd htied hnot, ?_⟩
      rw [hequal]
      refine ⟨fun htied => absurd htied hnot, fun heq => ?_⟩
      subst heq
      exact ⟨hirr a, hirr a⟩

theorem SearchMap.keyLaws_keys (m : SearchMap lt β) {a b : α} (ha : a ∈ m.keys)
    (hb : b ∈ m.keys) (c : α) : KeyLaws lt equal a b c := by
  rw [keyLaws_iff hequal hirr htrans]
  by_cases htied : Tied lt a b
  · exact .inl (m.chain.eq_of_tied ha hb htied)
  · exact .inr (not_tied.mp htied)

end Laws

end Search
end MediaServer
