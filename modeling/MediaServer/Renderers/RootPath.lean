/-
Where the configurations are looked for: `setRootPath` and the paths of `init`.

`setRootPath` keeps the part of a program path up to its last separator.  A path
without a separator it takes for a directory and appends one, so that `init` looks
in a directory with the program's name.  `foundNextToProgram_iff` says that this is
the only way for the search to leave the program's directory.

`paths` are the paths that `init` uses.  `init_congr` says that it uses no others, and
`init_setRootPath_congr` that they lie in the program's directory when its path has a
separator.
-/
import MediaServer.Renderers.Manager

namespace MediaServer
namespace Renderers
namespace RendererManager

open Text

variable (files : Files)

/-- `RendererManager::setRootPath`. -/
def setRootPath (rm : RendererManager) (rootPath : Str) : RendererManager :=
  let rootPath :=
    match rfind rootPath files.pathSeparator with
    | some last => rootPath.take (last + 1)
    | none => rootPath ++ [files.pathSeparator]
  { rm with rootPath := rootPath }

/-! ## The paths that are used -/

/-- The paths that `parseAll` opens, until one of them ends in an exception. -/
def opened (root : Str) : RendererManager → List Str → List Str
  | _, [] => []
  | rm, file :: entries =>
    (root ++ file) ::
      match rm.parse files root file with
      | .ok rm => opened root rm entries
      | .error _ => []

/-- The directory that `init` lists and the files that it opens. -/
def paths (rm : RendererManager) : List Str :=
  rm.root files :: opened files (rm.root files) rm (files.listDir (rm.root files))

variable {files}

theorem prefix_of_mem_opened {root path : Str} {rm : RendererManager} {entries : List Str}
    (h : path ∈ opened files root rm entries) : root <+: path := by
  induction entries generalizing rm with
  | nil => cases h
  | cons file entries ih =>
    rw [opened] at h
    rcases List.mem_cons.mp h with rfl | h
    · exact List.prefix_append root file
    · split at h
      · exact ih h
      · cases h

theorem rootPath_prefix {path : Str} {rm : RendererManager} (h : path ∈ rm.paths files) :
    rm.rootPath <+: path := by
  have hroot : rm.rootPath <+: rm.root files := by
    rw [root, List.append_assoc, List.append_assoc, List.append_assoc]
    exact List.prefix_append _ _
  rcases List.mem_cons.mp h with rfl | h
  · exact hroot
  · exact hroot.trans (prefix_of_mem_opened h)

theorem parse_congr {files' : Files} {root file : Str}
    (h : files'.load (root ++ file) = files.load (root ++ file)) (rm : RendererManager) :
    rm.parse files' root file = rm.parse files root file := by
  rw [parse, parse, h]

theorem parseAll_congr {files' : Files} {root : Str} {rm : RendererManager}
    {entries : List Str}
    (h : ∀ path ∈ opened files root rm entries, files'.load path = files.load path) :
    parseAll files' root rm entries = parseAll files root rm entries := by
  induction entries generalizing rm with
  | nil => rfl
  | cons file entries ih =>
    have hfile : files'.load (root ++ file) = files.load (root ++ file) :=
      h _ List.mem_cons_self
    rw [parseAll, parseAll, parse_congr hfile]
    cases hparse : rm.parse files root file with
    | error what => rfl
    | ok rm' =>
      refine ih fun path hpath => h path ?_
      rw [opened, hparse]
      exact List.mem_cons_of_mem _ hpath

/-- What `init` does depends on the file system through these paths only. -/
theorem init_congr {files' : Files} {rm : RendererManager}
    (hseparator : files'.pathSeparator = files.pathSeparator)
    (hlist : files'.listDir (rm.root files) = files.listDir (rm.root files))
    (hload : ∀ path ∈ rm.paths files, files'.load path = files.load path) :
    rm.init files' = rm.init files := by
  have hroot : rm.root files' = rm.root files := by rw [root, root, hseparator]
  have hall := parseAll_congr fun path hpath => hload path (List.mem_cons_of_mem _ hpath)
  rw [init, init, hroot, hlist]
  cases hentries : files.listDir (rm.root files) with
  | nil => rfl
  | cons file entries =>
    rw [hentries] at hall
    exact hall

/-! ## What is kept of a program path -/

theorem rootPath_of_separator (rm : RendererManager) {d b : Str}
    (hb : files.pathSeparator ∉ b) :
    (rm.setRootPath files (d ++ files.pathSeparator :: b)).rootPath =
      d ++ [files.pathSeparator] := by
  rw [setRootPath, rfind_append d hb]
  show (d ++ files.pathSeparator :: b).take (d.length + 1) = _
  rw [List.take_length_add_append, List.take_succ_cons, List.take_zero]

theorem rootPath_of_no_separator (rm : RendererManager) {p : Str}
    (hp : files.pathSeparator ∉ p) :
    (rm.setRootPath files p).rootPath = p ++ [files.pathSeparator] := by
  rw [setRootPath, rfind_eq_none hp]

theorem separator_last_rootPath (files : Files) (rm : RendererManager) (p : Str) :
    ∃ d, (rm.setRootPath files p).rootPath = d ++ [files.pathSeparator] := by
  by_cases hp : files.pathSeparator ∈ p
  · obtain ⟨d, b, rfl, hb⟩ := exists_last_of_mem hp
    exact ⟨d, rootPath_of_separator rm hb⟩
  · exact ⟨p, rootPath_of_no_separator rm hp⟩

/-- A root path is its own root path. -/
theorem setRootPath_rootPath (rm : RendererManager) (p : Str) :
    ((rm.setRootPath files p).setRootPath files (rm.setRootPath files p).rootPath).rootPath =
      (rm.setRootPath files p).rootPath := by
  obtain ⟨d, hd⟩ := separator_last_rootPath files rm p
  rw [hd]
  exact rootPath_of_separator _ List.not_mem_nil

theorem inside_of_mem_paths {rm : RendererManager} {d b path : Str}
    (hb : files.pathSeparator ∉ b)
    (h : path ∈ (rm.setRootPath files (d ++ files.pathSeparator :: b)).paths files) :
    d ++ [files.pathSeparator] <+: path := by
  have hprefix := rootPath_prefix h
  rw [rootPath_of_separator rm hb] at hprefix
  exact hprefix

/-- With a separator in the program path, start-up depends on nothing outside the
program's directory. -/
theorem init_setRootPath_congr (rm : RendererManager) {files' : Files} {d b : Str}
    (hb : files.pathSeparator ∉ b)
    (hseparator : files'.pathSeparator = files.pathSeparator)
    (hlist : ∀ path, d ++ [files.pathSeparator] <+: path →
      files'.listDir path = files.listDir path)
    (hload : ∀ path, d ++ [files.pathSeparator] <+: path → files'.load path = files.load path) :
    (rm.setRootPath files (d ++ files.pathSeparator :: b)).init files' =
      (rm.setRootPath files (d ++ files.pathSeparator :: b)).init files :=
  init_congr hseparator (hlist _ (inside_of_mem_paths hb List.mem_cons_self))
    fun path hpath => hload path (inside_of_mem_paths hb hpath)

/-- A program in /opt with one configuration. -/
def programFiles : Files where
  pathSeparator := '/'
  listDir path := if path = "/opt/resources/renderers/".toList then ["tv.conf".toList] else []
  read path := if path = "/opt/resources/renderers/tv.conf".toList then some "TV".toList else none
  textFormatParse text := some ⟨text, none, none⟩

/-- The same with another configuration outside of the program's directory. -/
def strayFile : Files :=
  { programFiles with
    listDir := fun path =>
      if path = "/resources/renderers/".toList then ["radio.conf".toList]
      else programFiles.listDir path
    read := fun path =>
      if path = "/resources/renderers/radio.conf".toList then some "Radio".toList
      else programFiles.read path }

theorem init_setRootPath_strayFile :
    ((new []).setRootPath programFiles ("/opt".toList ++ '/' :: "mediaserver".toList)).init
        strayFile =
      ((new []).setRootPath programFiles ("/opt".toList ++ '/' :: "mediaserver".toList)).init
        programFiles := by
  have hother {path other : Str} (hpath : "/opt".toList ++ ['/'] <+: path)
      (hother : ¬ "/opt".toList ++ ['/'] <+: other) : path ≠ other := fun heq =>
    hother (heq ▸ hpath)
  refine init_setRootPath_congr (new []) (by decide) rfl ?_ ?_
  · intro path hprefix
    exact if_neg (hother hprefix (by decide))
  · intro path hprefix
    show (strayFile.read path).bind programFiles.textFormatParse = _
    exact congrArg (Option.bind · programFiles.textFormatParse)
      (if_neg (hother hprefix (by decide)))

/-! ## Next to the program -/

/-- The configurations are looked for in the directory of the program `p`.  A path
that does not start with a separator resolves against the current directory. -/
structure FoundNextToProgram (files : Files) (rm : RendererManager) (p : Str) : Prop where
  directory : ∀ d b, p = d ++ files.pathSeparator :: b → files.pathSeparator ∉ b →
    ∀ path ∈ (rm.setRootPath files p).paths files, d ++ [files.pathSeparator] <+: path
  current : files.pathSeparator ∉ p → ∀ path ∈ (rm.setRootPath files p).paths files,
    path.head? ≠ some files.pathSeparator ∧ ¬ p ++ [files.pathSeparator] <+: path
  idempotent :
    ((rm.setRootPath files p).setRootPath files (rm.setRootPath files p).rootPath).rootPath =
      (rm.setRootPath files p).rootPath

/-- The search stays next to the program exactly when the program path has a
separator. -/
theorem foundNextToProgram_iff (files : Files) (rm : RendererManager) (p : Str) :
    FoundNextToProgram files rm p ↔ files.pathSeparator ∈ p := by
  constructor
  · intro h
    refine Decidable.by_contra fun hp => ?_
    obtain ⟨-, hbelow⟩ := h.current hp _ List.mem_cons_self
    have hprefix : (rm.setRootPath files p).rootPath <+: (rm.setRootPath files p).root files :=
      rootPath_prefix List.mem_cons_self
    rw [rootPath_of_no_separator rm hp] at hprefix
    exact hbelow hprefix
  · intro hp
    refine ⟨?_, fun hno => absurd hp hno, setRootPath_rootPath rm p⟩
    intro d b heq hb path hpath
    rw [heq] at hpath
    exact inside_of_mem_paths hb hpath

/-- `mediaserver`, as a shell that searches for the program calls it. -/
theorem not_foundNextToProgram_bare :
    ¬ FoundNextToProgram ⟨'/', fun _ => [], fun _ => none, fun _ => none⟩ (new [])
      "mediaserver".toList := by
  intro h
  have hlisted : "mediaserver/resources/renderers/".toList ∈
      ((new []).setRootPath ⟨'/', fun _ => [], fun _ => none, fun _ => none⟩
        "mediaserver".toList).paths ⟨'/', fun _ => [], fun _ => none, fun _ => none⟩ := by
    decide
  obtain ⟨-, hbelow⟩ := h.current (by decide) _ hlisted
  exact hbelow (by decide)

end RendererManager
end Renderers
end MediaServer
