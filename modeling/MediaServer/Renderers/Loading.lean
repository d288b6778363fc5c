/-
What `init` leaves in the manager.

`Loads` describes the manager after some files were parsed by the list of the
configurations in them: the one named "Default" is installed, the others are
appended in the order of the files, and the clients stay as they are.  One file
is `loads_parse`, and `loads_init` is the whole directory.
-/
import MediaServer.Renderers.Manager

namespace MediaServer
namespace Renderers

open Text Search

def Renderer.isDefault (r : Renderer) : Bool := r.name = "Default".toList

def Files.loadAll (files : Files) (root : Str) (entries : List Str) : List Renderer :=
  entries.filterMap fun file => files.load (root ++ file)

namespace RendererManager

/-- The configurations that `init` finds. -/
def configurations (files : Files) (rm : RendererManager) : List Renderer :=
  files.loadAll (rm.root files) (files.listDir (rm.root files))

/-- The ones among them that the lookup by headers goes through. -/
def candidates (files : Files) (rm : RendererManager) : List Renderer :=
  (rm.configurations files).filter fun r => !r.isDefault

/-- `rm'` is `rm` after the configurations `loaded` were added. -/
structure Loads (rm : RendererManager) (loaded : List Renderer) (rm' : RendererManager) :
    Prop where
  clients : rm'.clients = rm.clients
  default : rm'.default.map Ptr.object =
    (rm.default.map Ptr.object).or (loaded.find? Renderer.isDefault)
  renderers : rm'.renderers.map Ptr.object =
    rm.renderers.map Ptr.object ++ loaded.filter fun r => !r.isDefault

theorem Loads.nil (rm : RendererManager) : Loads rm [] rm where
  clients := rfl
  default := (Option.or_none ..).symm
  renderers := (List.append_nil _).symm

theorem Loads.append {rm rm' rm'' : RendererManager} {xs ys : List Renderer}
    (h : Loads rm xs rm') (h' : Loads rm' ys rm'') : Loads rm (xs ++ ys) rm'' where
  clients := h'.clients.trans h.clients
  default := by rw [h'.default, h.default, List.find?_append, Option.or_assoc]
  renderers := by rw [h'.renderers, h.renderers, List.filter_append, List.append_assoc]

theorem loads_parse {files : Files} {root file : Str} {rm rm' : RendererManager}
    (h : rm.parse files root file = .ok rm') :
    Loads rm (files.load (root ++ file)).toList rm' := by
  rw [parse] at h
  cases hload : files.load (root ++ file) with
  | none =>
    rw [hload] at h
    cases h
    exact ⟨rfl, (Option.or_none ..).symm, (List.append_nil _).symm⟩
  | some object =>
    rw [hload] at h
    by_cases hname : object.name = "Default".toList
    · have hdef : object.isDefault = true := decide_eq_true hname
      simp only [hname, if_true] at h
      cases hnull : rm.default with
      | some original =>
        rw [hnull] at h
        cases h
      | none =>
        rw [hnull] at h
        cases h
        refine ⟨rfl, ?_, ?_⟩
        · simp [hnull, hdef, fresh]
        · simp [hdef, grown]
    · have hdef : object.isDefault = false := decide_eq_false hname
      simp only [hname, if_false] at h
      cases h
      refine ⟨rfl, ?_, ?_⟩
      · simp [hdef, grown]
      · simp [hdef, fresh]

theorem loadAll_cons (files : Files) (root file : Str) (entries : List Str) :
    files.loadAll root (file :: entries) =
      (files.load (root ++ file)).toList ++ files.loadAll root entries := by
  rw [Files.loadAll, List.filterMap_cons]
  cases files.load (root ++ file) <;> rfl

theorem loads_parseAll {files : Files} {root : Str} {entries : List Str}
    {rm rm' : RendererManager} (h : parseAll files root rm entries = .ok rm') :
    Loads rm (files.loadAll root entries) rm' := by
  induction entries generalizing rm with
  | nil =>
    cases h
    exact Loads.nil _
  | cons file entries ih =>
    rw [parseAll] at h
    cases hparse : rm.parse files root file with
    | error what =>
      rw [hparse] at h
      cases h
    | ok rm₁ =>
      rw [hparse] at h
      rw [loadAll_cons]
      exact (loads_parse hparse).append (ih h)

theorem loads_init {files : Files} {rm rm' : RendererManager} (h : rm.init files = .ok rm') :
    Loads rm (rm.configurations files) rm' := by
  rw [init] at h
  rw [configurations]
  split at h
  · cases h
  · exact loads_parseAll h

/-! ## From a fresh manager -/

variable {files : Files} {rootPath : Str} {rm : RendererManager}

theorem clients_init (h : (new rootPath).init files = .ok rm) : rm.clients = .empty :=
  (loads_init h).clients

theorem default_init (h : (new rootPath).init files = .ok rm) :
    rm.default.map Ptr.object =
      ((new rootPath).configurations files).find? Renderer.isDefault :=
  (loads_init h).default

theorem renderers_init (h : (new rootPath).init files = .ok rm) :
    rm.renderers.map Ptr.object = (new rootPath).candidates files :=
  (loads_init h).renderers

/-- A default renderer is installed exactly when some file has one. -/
theorem default_eq_none_iff (h : (new rootPath).init files = .ok rm) :
    rm.default = none ↔ ∀ r ∈ (new rootPath).configurations files, r.isDefault = false := by
  rw [← Option.map_eq_none_iff (f := Ptr.object), default_init h, List.find?_eq_none]
  simp only [Bool.not_eq_true]

theorem isDefault_of_default (h : (new rootPath).init files = .ok rm) {original : Ptr Renderer}
    (horiginal : rm.default = some original) : original.object.isDefault = true := by
  have hfind := default_init h
  rw [horiginal] at hfind
  exact List.find?_some hfind.symm

theorem not_isDefault_of_mem_renderers (h : (new rootPath).init files = .ok rm)
    {candidate : Ptr Renderer} (hc : candidate ∈ rm.renderers) :
    candidate.object.isDefault = false := by
  have hmem : candidate.object ∈ (new rootPath).candidates files := by
    rw [← renderers_init h]
    exact List.mem_map_of_mem hc
  simpa using (List.mem_filter.mp hmem).2

end RendererManager
end Renderers
end MediaServer
