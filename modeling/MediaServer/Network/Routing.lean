/-
Routes and path segments.

A route should cover its own path and, with `includeChildren`, the paths below it:
`Reaches`.  The comparison of the main handler only asks whether the path starts
with that of the route, so a route also takes paths that go on inside a segment.
And a path that no route takes is answered with a failure that the layer above turns
into an internal error, where the server around it says that there is no such item.
`routed_iff` says when none of this shows.
-/
import MediaServer.Network.Requests
import MediaServer.Search.Scan

namespace MediaServer
namespace Network

open Text Neptune Renderers Search

/-! ## What a route covers -/

/-- The path is that of the route or a child of it.  Case counts unless the route
ignores it. -/
def Route.Reaches (route : Route) (path : Str) : Prop :=
  path.map (reading route.ignoreCase) = route.path.map (reading route.ignoreCase) ∨
    route.includeChildren = true ∧
      route.path.map (reading route.ignoreCase) <+: path.map (reading route.ignoreCase) ∧
      (route.path.getLast? = some '/' ∨ (path.drop route.path.length).head? = some '/')

/-- The comparison lets every path through that the route reaches. -/
theorem Route.covers_of_reaches {route : Route} {path : Str} (h : route.Reaches path) :
    route.covers path = true := by
  rw [Route.covers]
  rcases h with h | ⟨hchildren, hprefix, -⟩
  · split
    · exact decide_eq_true (compareN_eq_zero_of_initial (h ▸ List.prefix_refl _))
    · exact decide_eq_true (compare_eq_zero_of_map_eq h)
  · rw [if_pos hchildren]
    exact decide_eq_true (compareN_eq_zero_of_initial hprefix)

namespace MainHandler

/-- A main handler after the calls of `addHandler` for these routes. -/
def registered (calls : List Route) : MainHandler :=
  calls.foldl
    (fun main call => main.addHandler call.handler call.path call.includeChildren call.ignoreCase)
    { handlers := [] }

theorem handlers_registered (calls : List Route) : (registered calls).handlers = calls := by
  induction calls using List.reverseRecOn with
  | nil => rfl
  | append_singleton calls call ih =>
    rw [registered, List.foldl_append, ← registered]
    show (registered calls).handlers ++ [call] = calls ++ [call]
    rw [ih]

theorem dispatch_eq_some_iff {main : MainHandler} {path : Str} {handler : HttpRequestHandler} :
    main.dispatch path = some handler ↔
      ∃ route, IsFirst (fun route => route.covers path = true) main.handlers route ∧
        route.handler = handler := by
  rw [dispatch, Option.map_eq_some_iff]
  constructor
  · intro hcase
    obtain ⟨route, hroute, heq⟩ := hcase
    exact ⟨route, find?_eq_some_iff_isFirst.mp hroute, heq⟩
  · intro hcase
    obtain ⟨route, hroute, heq⟩ := hcase
    exact ⟨route, find?_eq_some_iff_isFirst.mpr hroute, heq⟩

/-! ## Dispatch -/

/-- The response that a handler is given. -/
def headed (x : Exchange) : HttpResponse :=
  x.response.addHeader "Server".toList "UPnP/1.0 DLNADOC/1.50 MediaServerPP/0.1".toList

theorem respond_of_dispatch {main : MainHandler} {x : Exchange} {handler : HttpRequestHandler}
    (h : main.dispatch x.request.path = some handler) (renderer : Ptr Renderer) :
    (main.respond renderer x).result =
        (handler.setupResponse x.request x.context (headed x)).1 ∧
      (main.respond renderer x).response =
        (handler.setupResponse x.request x.context (headed x)).2 := by
  simp only [respond, h, headed, and_self]

theorem respond_of_dispatch_none {main : MainHandler} {x : Exchange}
    (h : main.dispatch x.request.path = none) (renderer : Ptr Renderer) :
    (main.respond renderer x).result = nptFailure := by
  simp only [respond, h]

/-- The first route that reaches the path answers the request, and without one no
handler runs and the answer is that there is no such item. -/
structure Routed (calls : List Route) (renderer : Ptr Renderer) (x : Exchange) : Prop where
  reached : ∀ route, IsFirst (fun route => route.Reaches x.request.path) calls route →
    (registered calls).dispatch x.request.path = some route.handler ∧
      ((registered calls).respond renderer x).result =
        (route.handler.setupResponse x.request x.context (headed x)).1 ∧
      ((registered calls).respond renderer x).response =
        (route.handler.setupResponse x.request x.context (headed x)).2
  unreached : (∀ route ∈ calls, ¬ route.Reaches x.request.path) →
    (registered calls).dispatch x.request.path = none ∧
      ((registered calls).respond renderer x).result = nptErrorNoSuchItem ∧
      status ((registered calls).respond renderer x).result = some 404

/-- A request is routed as it should be exactly when some route reaches its path, and
the first route that lets the path through reaches it too or has the handler of
another route, the first that does. -/
theorem routed_iff (calls : List Route) (renderer : Ptr Renderer) (x : Exchange) :
    Routed calls renderer x ↔
      (∃ route ∈ calls, route.Reaches x.request.path) ∧
        ∀ route, IsFirst (fun route => route.covers x.request.path = true) calls route →
          route.Reaches x.request.path ∨
            ∃ route', IsFirst (fun route => route.Reaches x.request.path) calls route' ∧
              route' ≠ route ∧ route'.handler = route.handler := by
  have hdispatch (route : Route)
      (hroute : IsFirst (fun route => route.covers x.request.path = true) calls route) :
      (registered calls).dispatch x.request.path = some route.handler :=
    dispatch_eq_some_iff.mpr ⟨route, by rw [handlers_registered]; exact hroute, rfl⟩
  constructor
  · intro h
    -- Without a route that reaches the path, the answer is a plain failure.
    have hreached : ∃ route ∈ calls, route.Reaches x.request.path := by
      by_contra hnone
      obtain ⟨hdispatch, hresult, -⟩ := h.unreached fun route hroute hreaches =>
        hnone ⟨route, hroute, hreaches⟩
      rw [respond_of_dispatch_none hdispatch] at hresult
      exact absurd hresult (by decide)
    refine ⟨hreached, fun route hroute => ?_⟩
    obtain ⟨route', hroute'⟩ := exists_isFirst hreached
    have heq := hdispatch route hroute
    rw [(h.reached route' hroute').1] at heq
    by_cases hsame : route' = route
    · exact Or.inl (hsame ▸ hroute'.holds)
    · exact Or.inr ⟨route', hroute', hsame, Option.some.inj heq⟩
  · intro hcase
    obtain ⟨⟨reaching, hmem, hreaches⟩, hfirst⟩ := hcase
    refine ⟨fun route hroute => ?_, fun hnone => absurd hreaches (hnone reaching hmem)⟩
    have hcovered : ∃ route ∈ calls, route.covers x.request.path = true :=
      ⟨route, hroute.mem, Route.covers_of_reaches hroute.holds⟩
    obtain ⟨covering, hcovering⟩ := exists_isFirst hcovered
    have hhandler : covering.handler = route.handler := by
      rcases hfirst covering hcovering with hboth | ⟨route', hroute', -, heq⟩
      · rw [(hcovering.of_imp (fun _ => Route.covers_of_reaches) hboth).unique hroute]
      · rw [← heq, hroute'.unique hroute]
    have hrouted := hdispatch covering hcovering
    rw [hhandler] at hrouted
    exact ⟨hrouted, respond_of_dispatch hrouted renderer⟩

/-- The route for the description also takes a path that goes on after it. -/
theorem not_routed_inside_segment :
    ¬ Routed [⟨"/discover/fetch".toList, true, true, discoverHandler⟩]
      ⟨0, ⟨"Default".toList, none, none⟩⟩ (exchangeWith "/discover/fetcher".toList []) := by
  intro h
  have hnone : ¬ Route.Reaches ⟨"/discover/fetch".toList, true, true, discoverHandler⟩
      "/discover/fetcher".toList := by
    intro hreaches
    rcases hreaches with heq | ⟨-, -, hslash | hslash⟩
    · exact absurd heq (by decide)
    · exact absurd hslash (by decide)
    · exact absurd hslash (by decide)
  obtain ⟨hdispatch, -⟩ := h.unreached fun route hroute => by
    rw [List.mem_singleton.mp hroute]
    exact hnone
  cases hdispatch

end MainHandler
end Network
end MediaServer
