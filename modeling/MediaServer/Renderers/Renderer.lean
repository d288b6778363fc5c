/-
Renderer configurations and what the program reads them with.

A configuration is the protobuf message of `Renderer.proto`, with the fields
that choosing a renderer depends on.  Three parts of the program are not its
own and are parameters here: Pire, which compiles and runs patterns, the file
system, and protobuf's text format.

`Pire.plain` is Pire on patterns without operators: such a pattern matches where
it occurs, without regard to case.
-/
import MediaServer.Neptune.Headers

namespace MediaServer
namespace Renderers

open Text Neptune

structure ExtraHeader where
  name : Str
  value : Str
  deriving DecidableEq

structure UserAgent where
  search : Option Str
  extraHeader : List ExtraHeader
  deriving DecidableEq

structure Renderer where
  name : Str
  priority : Option UInt32
  userAgent : Option UserAgent
  deriving DecidableEq

/-- An object on the heap and where it lives.  A `Renderer*` that may be null is
an `Option (Ptr Renderer)`. -/
structure Ptr (α : Type) where
  location : Nat
  object : α
  deriving DecidableEq

/-! ## Pire -/

/-- Pire behind `CompileRegexp` and `Matches`.  Compiling gives nothing when it
throws `Pire::Error`. -/
structure Pire where
  Scanner : Type
  compileRegexp : Str → Option Scanner
  matchesText : Scanner → Str → Bool

namespace Pire

def isPlain (c : Char) : Bool := c.isAlphanum || c = ' ' || c = '-' || c = '/' || c = ':'

def occursIn (pattern : Str) : Str → Bool
  | [] => pattern = []
  | c :: text => pattern.isPrefixOf (c :: text) || occursIn pattern text

/-- Pire on patterns that consist of plain characters.  It refuses all others,
among them an unbalanced parenthesis and a trailing backslash. -/
def plain : Pire where
  Scanner := Str
  compileRegexp pattern := if pattern.all isPlain then some pattern else none
  matchesText scanner text := occursIn (scanner.map uppercase) (text.map uppercase)

end Pire

/-! ## Files -/

/-- The file system and protobuf's text format.  `read` gives nothing for a file
that cannot be opened, and `textFormatParse` nothing for a text that is not a
complete `Renderer`. -/
structure Files where
  pathSeparator : Char
  listDir : Str → List Str
  read : Str → Option Str
  textFormatParse : Str → Option Renderer

def Files.load (files : Files) (path : Str) : Option Renderer :=
  (files.read path).bind files.textFormatParse

end Renderers
end MediaServer
