/-
The server: `MediaServerPP` of `mediaserver.cpp`.

The constructor sets the name, leaves the GUID empty, and sets up an HTTP server
with one main handler for every path, which has one route.

The name is written into header lines, so the structure keeps with it that it is
text of that kind.
-/
import MediaServer.Network.Requests
import MediaServer.Server.Guid

namespace MediaServer

open Text Neptune Network

structure MediaServerPP where
  name : Str
  name_text : FieldText name
  udn : Guid
  server : HttpServer MainHandler

namespace MediaServerPP

/-- The main handler that the constructor sets up. -/
def mainHandler : MainHandler :=
  MainHandler.addHandler { handlers := [] } discoverHandler "/discover/fetch".toList true true

/-- `MediaServerPP::MediaServerPP`. -/
def new : MediaServerPP where
  name := "MediaServer++".toList
  name_text := by decide
  udn := Guid.empty
  server := HttpServer.addRequestHandler [] mainHandler "/".toList true

def udnString (gMS : MediaServerPP) : Str := gMS.udn.toString

end MediaServerPP
end MediaServer
