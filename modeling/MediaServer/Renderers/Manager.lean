/-
The renderer manager: `RendererManager` of `manager.cpp`.

`init` fills the list of configurations from the files of one directory.  After
that the only state that changes is `clients`, a `std::map` from socket
addresses to renderers, and the number of objects allocated.  Every renderer
handed out is a new copy of a configuration, so it has an address of its own.

A `Fault` is a way for a lookup to leave the function other than by returning:
a null pointer that is followed, or an exception of Pire's.
-/
import MediaServer.Search.Map
import MediaServer.Search.Scan
import MediaServer.Neptune.Address
import MediaServer.Renderers.Renderer

namespace MediaServer
namespace Renderers

open Text Neptune Search

def socketAddressComparator (a b : SocketAddress) : Bool :=
  if a.ipAddress.asLong < b.ipAddress.asLong then decide (a.port < b.port) else false

theorem socketAddressComparator_iff (a b : SocketAddress) :
    socketAddressComparator a b = true ↔
      a.ipAddress.asLong < b.ipAddress.asLong ∧ a.port < b.port := by
  unfold socketAddressComparator
  split
  · simp [*]
  · simp [*]

theorem socketAddressComparator_irrefl (a : SocketAddress) :
    socketAddressComparator a a = false := by
  rw [Bool.eq_false_iff, ne_eq, socketAddressComparator_iff]
  exact fun h => Nat.lt_irrefl _ h.1

theorem socketAddressComparator_trans (a b c : SocketAddress)
    (hab : socketAddressComparator a b = true) (hbc : socketAddressComparator b c = true) :
    socketAddressComparator a c = true := by
  rw [socketAddressComparator_iff] at *
  exact ⟨Nat.lt_trans hab.1 hbc.1, UInt32.lt_trans hab.2 hbc.2⟩

inductive Fault where
  | nullHeader
  | nullDefaultRenderer
  | nullRenderer
  | pireError
  deriving DecidableEq

structure RendererManager where
  rootPath : Str
  default : Option (Ptr Renderer)
  renderers : List (Ptr Renderer)
  clients : SearchMap socketAddressComparator (Option (Ptr Renderer))
  allocated : Nat

namespace RendererManager

/-- The manager that `get` constructs, with its root path set. -/
def new (rootPath : Str) : RendererManager :=
  { rootPath := rootPath, default := none, renderers := [], clients := .empty,
    allocated := 0 }

/-- `new Renderer(object)`: the pointer. -/
def fresh (rm : RendererManager) (object : Renderer) : Ptr Renderer :=
  { location := rm.allocated, object := object }

/-- `new Renderer(object)`: the manager afterwards. -/
def grown (rm : RendererManager) : RendererManager := { rm with allocated := rm.allocated + 1 }

def installed : RendererManager :=
  { new [] with
    default := some { location := 0, object := ⟨"Default".toList, none, none⟩ }, allocated := 1 }

/-! ## Loading -/

/-- `RendererManager::parse`, or the text of the exception. -/
def parse (files : Files) (rm : RendererManager) (root file : Str) :
    Except Str RendererManager :=
  match files.load (root ++ file) with
  | none => .ok rm.grown
  | some object =>
    if object.name = "Default".toList then
      match rm.default with
      | some _ => .error "Can not have more than one default renderer.".toList
      | none => .ok { rm.grown with default := some (rm.fresh object) }
    else .ok { rm.grown with renderers := rm.renderers ++ [rm.fresh object] }

def parseAll (files : Files) (root : Str) :
    RendererManager → List Str → Except Str RendererManager
  | rm, [] => .ok rm
  | rm, file :: entries =>
    match rm.parse files root file with
    | .ok rm => parseAll files root rm entries
    | .error what => .error what

def root (files : Files) (rm : RendererManager) : Str :=
  rm.rootPath ++ "resources".toList ++ [files.pathSeparator] ++ "renderers".toList ++
    [files.pathSeparator]

/-- `RendererManager::init`, or the text of the exception. -/
def init (files : Files) (rm : RendererManager) : Except Str RendererManager :=
  match files.listDir (rm.root files) with
  | [] => .error "No renderer configuration files found.".toList
  | entries => parseAll files (rm.root files) rm entries

/-! ## Lookup by address -/

/-- `RendererManager::find(addr)`: the renderer it yields when it returns true. -/
def findAddr (L : Locator socketAddressComparator) (rm : RendererManager)
    (addr : SocketAddress) : Option (Option (Ptr Renderer)) :=
  rm.clients.find L addr

/-- `RendererManager::defaultRenderer`, which copies the default renderer and
stores the copy for the client. -/
def defaultRenderer (L : Locator socketAddressComparator) (rm : RendererManager)
    (addr : SocketAddress) : Except Fault (Ptr Renderer × RendererManager) :=
  match rm.default with
  | none => .error .nullDefaultRenderer
  | some original =>
    let copy := rm.fresh original.object
    .ok (copy, { rm.grown with clients := rm.clients.set L addr (some copy) })

/-! ## Lookup by headers -/

/-- The value that the search patterns are tried on: the C string of the
User-Agent header. -/
def userAgentValue (headers : Headers) : Option Str :=
  ((headers.getHeader "USER-AGENT".toList).or (headers.getHeader "user-agent".toList)).map
    fun header => cString header.value

section Lookup

variable (pire : Pire)

def tryPattern (pattern text : Str) : Except Fault Bool :=
  match pire.compileRegexp pattern with
  | some scanner => .ok (pire.matchesText scanner text)
  | none => .error .pireError

/-- The loop over the extra headers.  The pattern is tried on the value that the
configuration itself gives, not on a header of the request. -/
def tryExtraHeaders : List ExtraHeader → Except Fault Bool
  | [] => .ok false
  | header :: rest =>
    match tryPattern pire header.name header.value with
    | .ok true => .ok true
    | .ok false => tryExtraHeaders rest
    | .error fault => .error fault

/-- The body of the loop over the configurations, for one that has a user agent. -/
def tryUserAgent (value : Option Str) (userAgent : UserAgent) : Except Fault Bool :=
  match value, userAgent.search with
  | some value, some search =>
    match tryPattern pire search value with
    | .ok true => .ok true
    | .ok false => tryExtraHeaders pire userAgent.extraHeader
    | .error fault => .error fault
  | _, _ => tryExtraHeaders pire userAgent.extraHeader

/-- The loop over the configurations: the first candidate that matches. -/
def findCandidate (value : Option Str) : List (Ptr Renderer) → Except Fault (Option (Ptr Renderer))
  | [] => .ok none
  | candidate :: rest =>
    match candidate.object.userAgent with
    | none => findCandidate value rest
    | some userAgent =>
      match tryUserAgent pire value userAgent with
      | .ok true => .ok (some candidate)
      | .ok false => findCandidate value rest
      | .error fault => .error fault

/-- `RendererManager::find(headers)`: a copy of the candidate when it returns
true. -/
def findHeaders (rm : RendererManager) (headers : Headers) :
    Except Fault (Option (Ptr Renderer × RendererManager)) :=
  match findCandidate pire (userAgentValue headers) rm.renderers with
  | .ok (some candidate) => .ok (some (rm.fresh candidate.object, rm.grown))
  | .ok none => .ok none
  | .error fault => .error fault

variable {pire}

theorem tryPattern_error {pattern text : Str} {fault : Fault}
    (h : tryPattern pire pattern text = .error fault) : fault = .pireError := by
  unfold tryPattern at h
  split at h
  · cases h
  · cases h
    rfl

theorem tryExtraHeaders_error {headers : List ExtraHeader} {fault : Fault}
    (h : tryExtraHeaders pire headers = .error fault) : fault = .pireError := by
  induction headers with
  | nil => cases h
  | cons header headers ih =>
    rw [tryExtraHeaders] at h
    split at h
    · cases h
    · exact ih h
    · rename_i htry
      cases h
      exact tryPattern_error htry

theorem tryUserAgent_error {value : Option Str} {userAgent : UserAgent} {fault : Fault}
    (h : tryUserAgent pire value userAgent = .error fault) : fault = .pireError := by
  unfold tryUserAgent at h
  split at h
  · split at h
    · cases h
    · exact tryExtraHeaders_error h
    · rename_i htry
      cases h
      exact tryPattern_error htry
  · exact tryExtraHeaders_error h

/-- What the loop does with one configuration. -/
def tryRenderer (pire : Pire) (value : Option Str) (r : Renderer) : Except Fault Bool :=
  match r.userAgent with
  | none => .ok false
  | some userAgent => tryUserAgent pire value userAgent

theorem tryRenderer_error {value : Option Str} {r : Renderer} {fault : Fault}
    (h : tryRenderer pire value r = .error fault) : fault = .pireError := by
  unfold tryRenderer at h
  split at h
  · cases h
  · exact tryUserAgent_error h

theorem findCandidate_eq_findM? (value : Option Str) (candidates : List (Ptr Renderer)) :
    findCandidate pire value candidates =
      candidates.findM? fun candidate => tryRenderer pire value candidate.object := by
  induction candidates with
  | nil => rfl
  | cons candidate candidates ih =>
    rw [findCandidate, findM?_cons, ih, tryRenderer]
    cases candidate.object.userAgent with
    | none => rfl
    | some userAgent =>
      dsimp only
      rcases tryUserAgent pire value userAgent with fault | _ | _ <;> rfl

/-- The only fault of a lookup by headers is an exception of Pire's. -/
theorem findCandidate_error {value : Option Str} {candidates : List (Ptr Renderer)}
    {fault : Fault} (h : findCandidate pire value candidates = .error fault) :
    fault = .pireError := by
  rw [findCandidate_eq_findM?] at h
  obtain ⟨candidate, -, hfail⟩ := mem_of_findM?_error h
  exact tryRenderer_error hfail

theorem mem_of_findCandidate {value : Option Str} {candidates : List (Ptr Renderer)}
    {candidate : Ptr Renderer}
    (h : findCandidate pire value candidates = .ok (some candidate)) :
    candidate ∈ candidates := by
  rw [findCandidate_eq_findM?] at h
  exact (mem_of_findM? h).1

theorem findHeaders_error {rm : RendererManager} {headers : Headers} {fault : Fault}
    (h : rm.findHeaders pire headers = .error fault) : fault = .pireError := by
  rw [findHeaders] at h
  split at h
  · cases h
  · cases h
  · rename_i hfind
    cases h
    exact findCandidate_error hfind

/-- A renderer found by headers is a copy of a configuration, and finding it
changes nothing but the number of objects. -/
theorem copy_of_findHeaders {rm rm' : RendererManager} {headers : Headers}
    {renderer : Ptr Renderer} (h : rm.findHeaders pire headers = .ok (some (renderer, rm'))) :
    rm' = rm.grown ∧ ∃ candidate ∈ rm.renderers, renderer = rm.fresh candidate.object := by
  rw [findHeaders] at h
  split at h
  · rename_i candidate hfind
    cases h
    exact ⟨rfl, candidate, mem_of_findCandidate hfind, rfl⟩
  · cases h
  · cases h

end Lookup

end RendererManager
end Renderers
end MediaServer
