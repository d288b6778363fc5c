/-
The spellings of a path.

The server that looks for the main handler decodes the path of a request first, and
the main handler compares the path as it was sent.  So an escape hides the character
it stands for from the routes and from the test for a description fetch.
`spellingIrrelevant_iff` says for which routes and paths nothing depends on it: the
decoded path is not that of the description, and the route that decides looks no
further than the two spellings agree.
-/
import MediaServer.Network.Routing

namespace MediaServer
namespace Network

open Text Neptune Search

/-! ## Decoding -/

theorem percentDecode_cons {c : Char} (h : c ≠ '%') (s : Str) :
    percentDecode (c :: s) = if c = '\x00' then [] else c :: percentDecode s := by
  conv => lhs; unfold percentDecode
  split
  · contradiction
  · rename_i heq
    exact absurd (List.cons.inj heq).1 h
  · rename_i heq
    obtain ⟨rfl, rfl⟩ := List.cons.inj heq
    rfl

/-- Without a percent sign there is nothing to decode. -/
theorem percentDecode_eq_cString {s : Str} (h : '%' ∉ cString s) :
    percentDecode s = cString s := by
  induction s with
  | nil => rfl
  | cons c s ih =>
    rw [cString_eq, first, List.headD_cons, List.tail_cons] at h ⊢
    by_cases hc : c = '\x00'
    · rw [percentDecode_cons (by rw [hc]; decide), if_pos hc, if_pos hc]
    · rw [if_neg hc, List.mem_cons, not_or] at h
      obtain ⟨hpercent, htail⟩ := h
      rw [percentDecode_cons (Ne.symm hpercent), if_neg hc, if_neg hc, ih htail]

theorem isDescriptionFetch_iff (path : Str) :
    isDescriptionFetch path = true ↔ cString path = "/description/fetch".toList := by
  have hread (s : Str) : s.map (reading false) = s := List.map_id'' (fun _ => rfl) s
  rw [isDescriptionFetch, decide_eq_true_iff, compare_eq_zero_iff, hread, hread]
  exact Iff.rfl

/-- A description path has no escapes. -/
theorem plain_of_descriptionFetch {path : Str} (h : isDescriptionFetch path = true) :
    percentDecode path = cString path := by
  refine percentDecode_eq_cString ?_
  rw [(isDescriptionFetch_iff path).mp h]
  decide

theorem isDescriptionFetch_of_plain {path : Str} (h : percentDecode path = cString path) :
    isDescriptionFetch path = isDescriptionFetch (percentDecode path) := by
  rw [Bool.eq_iff_iff, isDescriptionFetch_iff, isDescriptionFetch_iff, h, cString_cString]

/-- An escape hides a description path, and nothing else is taken for one. -/
theorem isDescriptionFetch_decoded_iff (path : Str) :
    isDescriptionFetch path = isDescriptionFetch (percentDecode path) ↔
      percentDecode path = cString path ∨ isDescriptionFetch (percentDecode path) = false := by
  constructor
  · intro h
    cases hfetch : isDescriptionFetch (percentDecode path) with
    | false => exact Or.inr rfl
    | true => exact Or.inl (plain_of_descriptionFetch (h.trans hfetch))
  · intro hcase
    rcases hcase with hplain | hfetch
    · exact isDescriptionFetch_of_plain hplain
    · cases hpath : isDescriptionFetch path with
      | false => exact hfetch.symm
      | true =>
        rw [← hpath]
        exact isDescriptionFetch_of_plain (plain_of_descriptionFetch hpath)

/-! ## Routes that cannot tell two paths apart -/

/-- As far as the route looks, the two paths are the same. -/
def Route.Alike (route : Route) (p q : Str) : Prop :=
  if route.includeChildren then compareN route.ignoreCase p q route.path.length = 0
  else compare route.ignoreCase p q = 0

theorem Route.covers_iff (route : Route) (path : Str) :
    route.covers path = true ↔
      if route.includeChildren then
        compareN route.ignoreCase path route.path route.path.length = 0
      else compare route.ignoreCase path route.path = 0 := by
  rw [Route.covers]
  split <;> exact decide_eq_true_iff

/-- A route that covers one of two paths covers the other exactly when they are the
same to it. -/
theorem Route.covers_iff_alike {route : Route} {p : Str} (h : route.covers p = true) (q : Str) :
    route.covers q = true ↔ route.Alike p q := by
  rw [Route.covers_iff] at h ⊢
  rw [Route.Alike]
  split
  · rename_i hchildren
    rw [if_pos hchildren, compareN_eq_zero_iff] at h
    rw [compareN_eq_zero_iff, compareN_eq_zero_iff]
    constructor
    · exact fun hq i hi => (h i hi).trans (hq i hi).symm
    · exact fun hq i hi => (hq i hi).symm.trans (h i hi)
  · rename_i hexact
    rw [if_neg hexact, compare_eq_zero_iff] at h
    rw [compare_eq_zero_iff, compare_eq_zero_iff, h]
    exact eq_comm

theorem Route.Alike.symm {route : Route} {p q : Str} (h : route.Alike p q) : route.Alike q p := by
  rw [Route.Alike] at h ⊢
  split
  · rename_i hchildren
    rw [if_pos hchildren, compareN_eq_zero_iff] at h
    rw [compareN_eq_zero_iff]
    exact fun i hi => (h i hi).symm
  · rename_i hexact
    rw [if_neg hexact, compare_eq_zero_iff] at h
    rw [compare_eq_zero_iff, h]

namespace MainHandler

variable {main : MainHandler} {p q : Str}

/-- The first route of `p` and the first route of `q` are two routes with the same
handler. -/
def SharedHandler (main : MainHandler) (p q : Str) : Prop :=
  ∃ route route', IsFirst (fun r => r.covers p = true) main.handlers route ∧
    IsFirst (fun r => r.covers q = true) main.handlers route' ∧ route ≠ route' ∧
    route.handler = route'.handler

theorem SharedHandler.dispatch_eq (h : main.SharedHandler p q) :
    main.dispatch p = main.dispatch q := by
  obtain ⟨route, route', hp, hq, -, heq⟩ := h
  rw [dispatch_eq_some_iff.mpr ⟨route, hp, heq⟩, dispatch_eq_some_iff.mpr ⟨route', hq, rfl⟩]

theorem SharedHandler.symm (h : main.SharedHandler p q) : main.SharedHandler q p := by
  obtain ⟨route, route', hp, hq, hne, heq⟩ := h
  exact ⟨route', route, hq, hp, hne.symm, heq.symm⟩

/-- The first route of one path is that of the other too, or shares its handler. -/
theorem alike_or_sharedHandler {route : Route}
    (hp : IsFirst (fun r => r.covers p = true) main.handlers route)
    (h : main.dispatch p = main.dispatch q) : route.Alike p q ∨ main.SharedHandler p q := by
  rw [dispatch_eq_some_iff.mpr ⟨route, hp, rfl⟩] at h
  obtain ⟨route', hq, heq⟩ := dispatch_eq_some_iff.mp h.symm
  by_cases hsame : route = route'
  · subst hsame
    exact Or.inl ((Route.covers_iff_alike hp.holds q).mp hq.holds)
  · exact Or.inr ⟨route, route', hp, hq, hsame, heq.symm⟩

theorem dispatch_eq_none_of_not_covers (h : ∀ route ∈ main.handlers, ¬ route.covers p = true) :
    main.dispatch p = none := by
  rw [dispatch, List.find?_eq_none.mpr h]
  rfl

/-- The first route that covers one of two paths decides whether they are dispatched
alike, unless both get to the same handler by two different routes. -/
theorem dispatch_eq_iff (main : MainHandler) (p q : Str) :
    main.dispatch p = main.dispatch q ↔
      ∀ route, IsFirst (fun r => r.covers p = true ∨ r.covers q = true) main.handlers route →
        route.Alike p q ∨ main.SharedHandler p q := by
  constructor
  · intro h route hroute
    rcases hroute.holds with hp | hq
    · exact alike_or_sharedHandler (hroute.of_imp (fun _ => Or.inl) hp) h
    · have hcase := alike_or_sharedHandler (hroute.of_imp (fun _ => Or.inr) hq) h.symm
      exact hcase.imp Route.Alike.symm SharedHandler.symm
  · intro h
    by_cases hcovered : ∃ route ∈ main.handlers, route.covers p = true ∨ route.covers q = true
    · obtain ⟨route, hroute⟩ := exists_isFirst hcovered
      rcases h route hroute with halike | hshared
      -- The route covers one of the paths, and cannot tell the other from it.
      · have hboth : route.covers p = true ∧ route.covers q = true := by
          rcases hroute.holds with hp | hq
          · exact ⟨hp, (Route.covers_iff_alike hp q).mpr halike⟩
          · exact ⟨(Route.covers_iff_alike hq p).mpr halike.symm, hq⟩
        rw [dispatch_eq_some_iff.mpr ⟨route, hroute.of_imp (fun _ => Or.inl) hboth.1, rfl⟩,
          dispatch_eq_some_iff.mpr ⟨route, hroute.of_imp (fun _ => Or.inr) hboth.2, rfl⟩]
      · exact hshared.dispatch_eq
    · have hnone : ∀ route ∈ main.handlers, ¬ (route.covers p = true ∨ route.covers q = true) :=
        fun route hroute hcovers => hcovered ⟨route, hroute, hcovers⟩
      rw [dispatch_eq_none_of_not_covers fun r hr hp => hnone r hr (Or.inl hp),
        dispatch_eq_none_of_not_covers fun r hr hq => hnone r hr (Or.inr hq)]

/-! ## Two spellings -/

/-- Both spellings go to the same handler and are the same to the test for a
description fetch, and both are treated as the decoded path is. -/
structure SpellingIrrelevant (main : MainHandler) (p q : Str) : Prop where
  handler : main.dispatch p = main.dispatch q
  description : isDescriptionFetch p = isDescriptionFetch q
  decodedHandler : main.dispatch p = main.dispatch (percentDecode p)
  decodedDescription : isDescriptionFetch p = isDescriptionFetch (percentDecode p)

/-- Decoding leaves the path as it is or does not make it that of the description, and
the first route that covers it in one of the two forms looks no further than they are
the same, or two different routes give the two forms one handler. -/
structure ReadAsDecoded (main : MainHandler) (path : Str) : Prop where
  description : percentDecode path = cString path ∨
    isDescriptionFetch (percentDecode path) = false
  routes : ∀ route, IsFirst (fun r => r.covers path = true ∨ r.covers (percentDecode path) = true)
    main.handlers route →
      route.Alike path (percentDecode path) ∨ main.SharedHandler path (percentDecode path)

theorem readAsDecoded_iff (main : MainHandler) (path : Str) :
    ReadAsDecoded main path ↔
      isDescriptionFetch path = isDescriptionFetch (percentDecode path) ∧
        main.dispatch path = main.dispatch (percentDecode path) := by
  rw [isDescriptionFetch_decoded_iff, dispatch_eq_iff]
  exact ⟨fun h => ⟨h.description, h.routes⟩, fun h => ⟨h.1, h.2⟩⟩

theorem spellingIrrelevant_iff (main : MainHandler) (p q : Str)
    (h : percentDecode p = percentDecode q) :
    SpellingIrrelevant main p q ↔ ReadAsDecoded main p ∧ ReadAsDecoded main q := by
  rw [readAsDecoded_iff, readAsDecoded_iff, ← h]
  constructor
  · intro hspelling
    exact ⟨⟨hspelling.decodedDescription, hspelling.decodedHandler⟩,
      hspelling.description.symm.trans hspelling.decodedDescription,
      hspelling.handler.symm.trans hspelling.decodedHandler⟩
  · intro hcase
    obtain ⟨⟨hdescription, hhandler⟩, hdescription', hhandler'⟩ := hcase
    exact ⟨hhandler.trans hhandler'.symm, hdescription.trans hdescription'.symm, hhandler,
      hdescription⟩

/-- The escape stands behind all that the route looks at. -/
theorem spellingIrrelevant_child :
    SpellingIrrelevant (registered [⟨"/media/".toList, true, true, discoverHandler⟩])
      "/media/a%2Fb".toList "/media/a/b".toList := by
  refine (spellingIrrelevant_iff _ _ _ (by decide)).mpr
    ⟨⟨by decide, fun route hroute => Or.inl ?_⟩, ⟨by decide, fun route hroute => Or.inl ?_⟩⟩
  · rw [List.mem_singleton.mp hroute.mem]
    show compareN true _ _ 7 = 0
    decide
  · rw [List.mem_singleton.mp hroute.mem]
    show compareN true _ _ 7 = 0
    decide

/-- A route is not found under another spelling of its own path. -/
theorem not_spellingIrrelevant_slash :
    ¬ SpellingIrrelevant (registered [⟨"/discover/fetch".toList, true, true, discoverHandler⟩])
      "/discover/fetch".toList "/discover%2Ffetch".toList := by
  intro h
  cases h.handler

end MainHandler
end Network
end MediaServer
