/-
The location that is advertised and the paths that are served.

Every message that advertises the server gives a LOCATION with the path
`/description/fetch`.  The server has one route, `/discover/fetch` with all paths
below it, and only a request that takes this route reaches the code that asks
whether its path is `/description/fetch`.  No path passes both comparisons,
`dispatch_of_descriptionFetch`, so no request is ever served as a description
fetch, and every advertised location leads nowhere.
-/
import MediaServer.Network.Serving
import MediaServer.Network.Upnp

namespace MediaServer
namespace Upnp

open Text Neptune Network Renderers Search

/-- The path of a URL: what follows the host and the port. -/
def pathOf (url : Str) : Str := (url.drop "http://".length).dropWhile (· ≠ '/')

def LocationPath (text path : Str) : Prop :=
  ∃ url, (Header.mk "LOCATION".toList url).line ∈ (splitCRLF text).1 ∧ path = pathOf url

/-- The server hands the request to a main handler that dispatches it to the
discover handler, as a description fetch, and succeeds. -/
def DescriptionServed (gMS : MediaServerPP) (pire : Pire)
    (L : Locator socketAddressComparator) (rm : RendererManager) (x : Exchange) : Prop :=
  ∃ main, gMS.server.requestHandler x.request.path = some main ∧
    main.dispatch x.request.path = some discoverHandler ∧
    isDescriptionFetch x.request.path = true ∧
    ∃ served rm', main.setupResponse pire L rm x = .ok (served, rm') ∧
      served.result = nptSuccess

/-- Every request with a User-Agent for the path of a LOCATION in the message is
served as a description fetch, if a default renderer is installed. -/
def LocationServed (gMS : MediaServerPP) (text : Str) : Prop :=
  ∀ path, LocationPath text path → ∀ (pire : Pire) (L : Locator socketAddressComparator)
    (rm : RendererManager) (x : Exchange), rm.default ≠ none → x.HasUserAgent →
      x.request.path = path → DescriptionServed gMS pire L rm x

/-! ## The two comparisons exclude each other -/

theorem dispatch_eq_none {path : Str}
    (h : compareN true path "/discover/fetch".toList 15 ≠ 0) :
    MediaServerPP.mainHandler.dispatch path = none := by
  have hcovers : Route.covers ⟨"/discover/fetch".toList, true, true, discoverHandler⟩ path =
      false := decide_eq_false h
  show (List.find? _ [_]).map Route.handler = none
  rw [List.find?_cons, hcovers]
  rfl

/-- A description path starts with `/de`, and the route with `/di`. -/
theorem dispatch_of_descriptionFetch {path : Str} (h : isDescriptionFetch path = true) :
    MediaServerPP.mainHandler.dispatch path = none := by
  have htext : "/description/fetch".toList = '/' :: 'd' :: 'e' :: "scription/fetch".toList := by
    decide
  have hroute : "/discover/fetch".toList = '/' :: 'd' :: 'i' :: "scover/fetch".toList := by
    decide
  have hzero : compare false path "/description/fetch".toList = 0 := of_decide_eq_true h
  rw [htext, compare_cons_eq_zero_iff false _ _ (by decide)] at hzero
  obtain ⟨_, s₁, rfl, rfl, h₁⟩ := hzero
  rw [compare_cons_eq_zero_iff false _ _ (by decide)] at h₁
  obtain ⟨_, s₂, rfl, rfl, h₂⟩ := h₁
  rw [compare_cons_eq_zero_iff false _ _ (by decide)] at h₂
  obtain ⟨_, s₃, rfl, rfl, -⟩ := h₂
  refine dispatch_eq_none ?_
  rw [hroute, compareN_cons, if_pos (by decide), compareN_cons, if_pos (by decide),
    compareN_cons, if_neg (by decide)]
  decide

theorem requestHandler_new {path : Str} {main : MainHandler}
    (h : MediaServerPP.new.server.requestHandler path = some main) :
    main = MediaServerPP.mainHandler := by
  have hfind : MediaServerPP.new.server.requestHandler path =
      (if startsWith false (percentDecode path) "/".toList then [MediaServerPP.mainHandler]
      else []).head? := by
    show (HttpServer.findFrom _ [_] []).head? = _
    rw [HttpServer.findFrom]
    simp only [if_true]
    split <;> rfl
  rw [hfind] at h
  split at h
  · exact (Option.some.inj h).symm
  · cases h

theorem not_descriptionServed (pire : Pire) (L : Locator socketAddressComparator)
    (rm : RendererManager) (x : Exchange) :
    ¬ DescriptionServed .new pire L rm x := by
  intro hcase
  obtain ⟨main, hmain, hdispatch, hfetch, -⟩ := hcase
  rw [requestHandler_new hmain, dispatch_of_descriptionFetch hfetch] at hdispatch
  cases hdispatch

/-! ## Every message with a LOCATION -/

theorem locationPath_buildMsg (name udn nt : Str) :
    LocationPath (buildMsg name udn nt alive) "/description/fetch".toList := by
  refine ⟨location, ?_, by decide⟩
  rw [buildMsg_alive]
  exact line_mem_splitCRLF _ (by simp [aliveHeaders]) (by decide)

theorem locationPath_discovery (name udn date st : Str) :
    LocationPath (discovery name udn date st) "/description/fetch".toList := by
  refine ⟨location, ?_, by decide⟩
  rw [discovery_eq]
  exact line_mem_splitCRLF _ (by simp [discoveryHeaders]) (by decide)

theorem not_locationServed {text path : Str} (h : LocationPath text path) :
    ¬ LocationServed .new text := by
  intro hserved
  refine not_descriptionServed .plain (.scan _) .installed
    (exchangeWith path [⟨"User-Agent".toList, []⟩]) ?_
  exact hserved path h _ _ _ _ nofun nofun rfl

/-- No alive notification and no search reply advertises a location that is
served, whatever they are about, and no request at all is served as a description
fetch. -/
theorem location_never_served (nt st : Str) (now : TimeStamp) (host : Str) (port : Int32)
    (pire : Pire) (L : Locator socketAddressComparator) (rm : RendererManager) (x : Exchange) :
    ¬ LocationServed .new (sendMessage .new nt alive).payload ∧
    ¬ LocationServed .new (sendDiscover .new now host port st).payload ∧
    ¬ DescriptionServed .new pire L rm x :=
  ⟨not_locationServed (locationPath_buildMsg _ _ nt),
    not_locationServed (locationPath_discovery _ _ _ st), not_descriptionServed pire L rm x⟩

/-- The notification for the root device, for one. -/
theorem location_rootDevice_not_served :
    ¬ LocationServed .new (sendMessage .new rootDevice alive).payload :=
  not_locationServed (locationPath_buildMsg _ _ rootDevice)

end Upnp
end MediaServer
