import MediaServer.Text.Lines
import MediaServer.Search.Tree
import MediaServer.Search.Scan
import MediaServer.Machine.Trace
import MediaServer.Machine.Cache
import MediaServer.Neptune.Address
import MediaServer.Neptune.Headers
import MediaServer.Neptune.Time
import MediaServer.Server.Guid
import MediaServer.Renderers.Renderer
import MediaServer.Renderers.Manager
import MediaServer.Renderers.Clients
import MediaServer.Renderers.Loading
import MediaServer.Renderers.Patterns
import MediaServer.Neptune.Http
import MediaServer.Network.Requests
import MediaServer.Network.Serving
import MediaServer.Network.Safety
import MediaServer.Network.Recognition
import MediaServer.Server.MediaServerPP
import MediaServer.Network.Upnp
import MediaServer.Network.Listener
import MediaServer.Network.Location
import MediaServer.Network.ControlPoint
import MediaServer.Network.ByeBye
import MediaServer.Network.Identity
import MediaServer.Network.Expiry
import MediaServer.Network.Messages
import MediaServer.Renderers.Defaults
import MediaServer.Renderers.Matching
import MediaServer.Renderers.Selection
import MediaServer.Renderers.Order
import MediaServer.Server.Interface
import MediaServer.Network.Multicast
import MediaServer.Network.Ledger
import MediaServer.Network.Routing
import MediaServer.Network.Spelling
import MediaServer.Neptune.Integers
import MediaServer.Neptune.DateParsing
import MediaServer.Neptune.Calendar
import MediaServer.Network.Date
import MediaServer.Renderers.RootPath
import MediaServer.Search.Laws
import MediaServer.Renderers.Addresses
import MediaServer.Automata.Determinization
import MediaServer.Automata.Kleene
import MediaServer.Pire.Runner
import MediaServer.Pire.Grammar
import MediaServer.Pire.Languages
import MediaServer.Automata.Occurrences
import MediaServer.Pire.Chains
import MediaServer.Pire.Lexer
import MediaServer.Pire.Literal
import MediaServer.Pire.Folding
import MediaServer.Renderers.Vendored
import MediaServer.Network.Compiled
