/-
HTTP requests, responses and the server that hands them to handlers.

`HttpServer` is `PLT_HttpServer` with the part of `NPT_HttpServer` that looks for
handlers: it matches them against the percent-decoded path of a request and runs
the first one.  The date and language headers that Platinum adds to the response
afterwards are left out.
-/
import MediaServer.Neptune.Address
import MediaServer.Neptune.Headers

namespace MediaServer
namespace Neptune

open Text

abbrev NptResult := Int

def nptSuccess : NptResult := 0

def nptFailure : NptResult := -1

def nptErrorPermissionDenied : NptResult := -20001

def nptErrorNoSuchItem : NptResult := -20005

def nptErrorTerminated : NptResult := -20016

structure HttpRequest where
  method : Str
  protocol : Str
  path : Str
  headers : Headers

structure HttpRequestContext where
  remoteAddress : SocketAddress

/-- `NPT_HttpResponse`, with the text that its entity streams. -/
structure HttpResponse where
  headers : Headers
  inputStream : Option Str

namespace HttpResponse

def addHeader (response : HttpResponse) (name value : Str) : HttpResponse :=
  { response with headers := response.headers.addHeader name value }

def setInputStream (response : HttpResponse) (text : Str) : HttpResponse :=
  { response with inputStream := some text }

end HttpResponse

structure HttpRequestHandler where
  setupResponse : HttpRequest → HttpRequestContext → HttpResponse → NptResult × HttpResponse

/-- The status that `PLT_HttpServerSocketTask::RespondToClient` answers a result
with.  It sends no response when it is told to terminate. -/
def status (result : NptResult) : Option Nat :=
  if result = nptErrorNoSuchItem then some 404
  else if result = nptErrorPermissionDenied then some 403
  else if result = nptErrorTerminated then none
  else if result ≠ nptSuccess then some 500
  else some 200

/-! ## Paths -/

def hexToNibble (c : Char) : Option Nat :=
  if 'a' ≤ c ∧ c ≤ 'f' then some (c.toNat - 'a'.toNat + 10)
  else if 'A' ≤ c ∧ c ≤ 'F' then some (c.toNat - 'A'.toNat + 10)
  else if '0' ≤ c ∧ c ≤ '9' then some (c.toNat - '0'.toNat)
  else none

def hexToByte (high low : Char) : Option Char :=
  match hexToNibble high, hexToNibble low with
  | some h, some l => some (Char.ofNat (16 * h + l))
  | _, _ => none

/-- `NPT_Uri::PercentDecode`, which keeps a `%` that starts no escape. -/
def percentDecode : Str → Str
  | [] => []
  | '%' :: a :: b :: s =>
    match hexToByte a b with
    | some byte => byte :: percentDecode s
    | none => '%' :: percentDecode (a :: b :: s)
  | c :: s => if c = '\x00' then [] else c :: percentDecode s

/-! ## The server -/

structure HandlerConfig (H : Type) where
  handler : H
  path : Str
  includeChildren : Bool

/-- The handlers of a `PLT_HttpServer`, in the order they were added. -/
abbrev HttpServer (H : Type) := List (HandlerConfig H)

namespace HttpServer

variable {H : Type}

def addRequestHandler (server : HttpServer H) (handler : H) (path : Str)
    (includeChildren : Bool) : HttpServer H :=
  server ++ [{ handler := handler, path := path, includeChildren := includeChildren }]

/-- The loop of `NPT_HttpServer::FindRequestHandlers`, which puts the handlers of
the exact path before the others. -/
def findFrom (decoded : Str) : HttpServer H → List H → List H
  | [], handlers => handlers
  | config :: server, handlers =>
    if config.includeChildren then
      if startsWith false decoded config.path then
        findFrom decoded server (handlers ++ [config.handler])
      else findFrom decoded server handlers
    else if compare false decoded config.path = 0 then
      findFrom decoded server (config.handler :: handlers)
    else findFrom decoded server handlers

def findRequestHandlers (server : HttpServer H) (path : Str) : List H :=
  findFrom (percentDecode path) server []

/-- The handler that `PLT_HttpServer::SetupResponse` runs, if there is one. -/
def requestHandler (server : HttpServer H) (path : Str) : Option H :=
  (server.findRequestHandlers path).head?

end HttpServer
end Neptune
end MediaServer
