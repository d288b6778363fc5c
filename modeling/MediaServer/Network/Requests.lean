/-
The request handlers: `MainHandler` and `DiscoverHandler` of `requests.cpp`.

`MainHandler::SetupResponse` first follows the pointer to the User-Agent header,
for a line of its log, then chooses a renderer, and only then looks at the path.
The choice goes by address before it goes by headers, and falls back to a copy
of the default renderer, which it stores for the address.

A request that faults leaves the manager as it was.  `handle` is a request as a
step of the manager, so a run of requests is a trace of `handle`.
-/
import MediaServer.Neptune.Http
import MediaServer.Renderers.Manager

namespace MediaServer
namespace Network

open Text Neptune Renderers Search

/-! ## `DiscoverHandler` -/

def isDescriptionFetch (path : Str) : Bool :=
  compare false path "/description/fetch".toList = 0

/-- `DiscoverHandler`, which answers a description fetch like any other request. -/
def discoverHandler : HttpRequestHandler where
  setupResponse _ _ response :=
    let response := response.addHeader "Content-Type".toList
      "text/xml; charset=\"utf-8\"".toList
    let response := response.addHeader "Accept-Ranges".toList "bytes".toList
    let response := response.addHeader "Connection".toList "keep-alive".toList
    let response := response.addHeader "Cache-Control".toList "no-cache".toList
    let response := response.addHeader "Expires".toList "0".toList
    (nptSuccess, response.setInputStream "<html><body>Bye Bye!</body></html>".toList)

/-! ## `MainHandler` -/

structure Route where
  path : Str
  includeChildren : Bool
  ignoreCase : Bool
  handler : HttpRequestHandler

/-- The comparison that `MainHandler::SetupResponse` makes for a route. -/
def Route.covers (route : Route) (path : Str) : Bool :=
  if route.includeChildren then
    compareN route.ignoreCase path route.path route.path.length = 0
  else compare route.ignoreCase path route.path = 0

structure MainHandler where
  handlers : List Route

structure Served where
  renderer : Ptr Renderer
  result : NptResult
  response : HttpResponse

structure Exchange where
  request : HttpRequest
  context : HttpRequestContext
  response : HttpResponse

namespace Exchange

def addr (x : Exchange) : SocketAddress := x.context.remoteAddress

def headers (x : Exchange) : Headers := x.request.headers

def HasUserAgent (x : Exchange) : Prop := x.headers.getHeader "USER-AGENT".toList ≠ none

end Exchange

def exchangeWith (path : Str) (headers : Headers) : Exchange where
  request := ⟨"GET".toList, "HTTP/1.1".toList, path, headers⟩
  context := ⟨⟨⟨10, 0, 0, 1⟩, 80⟩⟩
  response := ⟨[], none⟩

namespace MainHandler

def addHandler (main : MainHandler) (handler : HttpRequestHandler) (path : Str)
    (includeChildren ignoreCase : Bool) : MainHandler :=
  { handlers := main.handlers ++ [⟨path, includeChildren, ignoreCase, handler⟩] }

def dispatch (main : MainHandler) (path : Str) : Option HttpRequestHandler :=
  (main.handlers.find? fun route => route.covers path).map Route.handler

/-- The end of `MainHandler::SetupResponse`, once there is a renderer. -/
def respond (main : MainHandler) (renderer : Ptr Renderer) (x : Exchange) : Served :=
  let response := x.response.addHeader "Server".toList
    "UPnP/1.0 DLNADOC/1.50 MediaServerPP/0.1".toList
  match main.dispatch x.request.path with
  | some handler =>
    let answer := handler.setupResponse x.request x.context response
    { renderer := renderer, result := answer.1, response := answer.2 }
  | none => { renderer := renderer, result := nptFailure, response := response }

section Setup

variable (pire : Pire) (L : Locator socketAddressComparator)

/-- The choice of a renderer in `MainHandler::SetupResponse`. -/
def chooseRenderer (rm : RendererManager) (addr : SocketAddress) (headers : Headers) :
    Except Fault (Option (Ptr Renderer) × RendererManager) :=
  match rm.findAddr L addr with
  | some renderer => .ok (renderer, rm)
  | none =>
    match rm.findHeaders pire headers with
    | .error fault => .error fault
    | .ok (some (renderer, rm')) => .ok (some renderer, rm')
    | .ok none =>
      match rm.defaultRenderer L addr with
      | .ok (renderer, rm') => .ok (some renderer, rm')
      | .error fault => .error fault

def setupResponse (main : MainHandler) (rm : RendererManager) (x : Exchange) :
    Except Fault (Served × RendererManager) :=
  match x.headers.getHeader "USER-AGENT".toList with
  | none => .error .nullHeader
  | some _ =>
    match chooseRenderer pire L rm x.addr x.headers with
    | .error fault => .error fault
    | .ok (none, _) => .error .nullRenderer
    | .ok (some renderer, rm') => .ok (main.respond renderer x, rm')

/-- A request as a step of the manager. -/
def handle (main : MainHandler) (rm : RendererManager) (x : Exchange) :
    Except Fault Served × RendererManager :=
  match main.setupResponse pire L rm x with
  | .ok (served, rm') => (.ok served, rm')
  | .error fault => (.error fault, rm)

end Setup

@[simp] theorem respond_renderer (main : MainHandler) (renderer : Ptr Renderer) (x : Exchange) :
    (main.respond renderer x).renderer = renderer := by
  unfold respond
  split <;> rfl

end MainHandler
end Network
end MediaServer
