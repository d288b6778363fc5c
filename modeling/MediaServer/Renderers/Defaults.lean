/-
How many files have a default renderer.

`parse` throws at a second configuration named "Default", so `init` returns
exactly when the directory has at most one: `init_returns_iff`.  Nothing checks
that there is one at all.  `loadsProperly_iff` says what this leaves of the state
that `defaultRenderer` relies on, since it follows the pointer without a check.
-/
import MediaServer.Renderers.Patterns

namespace MediaServer
namespace Renderers

open Text

namespace RendererManager

/-- The default renderer, if there is one, as a list. -/
def defaults (rm : RendererManager) : List Renderer := (rm.default.map Ptr.object).toList

theorem length_defaults_le (rm : RendererManager) : rm.defaults.length ≤ 1 := by
  rw [defaults]
  cases rm.default with
  | none => exact Nat.zero_le 1
  | some original => exact Nat.le_refl 1

/-! ## When `init` returns -/

/-- A file that is parsed adds its default renderer to the others, and `parse`
throws when that makes two. -/
theorem parse_defaults (files : Files) (root : Str) (rm : RendererManager) (file : Str) :
    match rm.parse files root file with
    | .ok rm' => rm'.defaults =
        rm.defaults ++ (files.load (root ++ file)).toList.filter Renderer.isDefault
    | .error _ => 1 <
        (rm.defaults ++ (files.load (root ++ file)).toList.filter Renderer.isDefault).length := by
  rw [parse]
  cases files.load (root ++ file) with
  | none => exact (List.append_nil _).symm
  | some object =>
    by_cases hname : object.name = "Default".toList
    · have hdef : object.isDefault = true := decide_eq_true hname
      have hkeep : [object].filter Renderer.isDefault = [object] := by
        rw [List.filter_cons_of_pos hdef, List.filter_nil]
      simp only [if_pos hname, Option.toList_some, hkeep, defaults]
      cases rm.default with
      | some original => exact Nat.lt_succ_self 1
      | none => rfl
    · have hdef : object.isDefault = false := decide_eq_false hname
      have hskip : [object].filter Renderer.isDefault = [] := by
        rw [List.filter_cons_of_neg (by rw [hdef]; exact Bool.false_ne_true), List.filter_nil]
      simp only [if_neg hname, Option.toList_some, hskip, List.append_nil]
      rfl

theorem parseAll_defaults (files : Files) (root : Str) (rm : RendererManager)
    (entries : List Str) :
    match parseAll files root rm entries with
    | .ok rm' => rm'.defaults =
        rm.defaults ++ (files.loadAll root entries).filter Renderer.isDefault
    | .error _ => 1 <
        (rm.defaults ++ (files.loadAll root entries).filter Renderer.isDefault).length := by
  induction entries generalizing rm with
  | nil => exact (List.append_nil _).symm
  | cons file entries ih =>
    have hfile := parse_defaults files root rm file
    rw [parseAll, loadAll_cons, List.filter_append, ← List.append_assoc]
    rcases hparse : rm.parse files root file with what | rm₁
    · rw [hparse] at hfile
      rw [List.length_append]
      exact Nat.lt_add_right _ hfile
    · rw [hparse] at hfile
      rw [← hfile]
      exact ih rm₁

variable {files : Files} {rootPath : Str}

theorem defaults_init {rm : RendererManager} (h : (new rootPath).init files = .ok rm) :
    rm.defaults = ((new rootPath).configurations files).filter Renderer.isDefault := by
  rw [init] at h
  rw [configurations]
  split at h
  · cases h
  · have hall := parseAll_defaults files ((new rootPath).root files) (new rootPath)
      (files.listDir ((new rootPath).root files))
    rw [h] at hall
    exact hall

/-- `init` throws at an empty directory and at a second default renderer. -/
theorem init_returns_iff (files : Files) (rootPath : Str) :
    (∃ rm, (new rootPath).init files = .ok rm) ↔
      files.listDir ((new rootPath).root files) ≠ [] ∧
        (((new rootPath).configurations files).filter Renderer.isDefault).length ≤ 1 := by
  constructor
  · intro hcase
    obtain ⟨rm, h⟩ := hcase
    refine ⟨fun hempty => ?_, ?_⟩
    · rw [init, hempty] at h
      cases h
    · rw [← defaults_init h]
      exact rm.length_defaults_le
  · intro hcase
    obtain ⟨hne, hone⟩ := hcase
    have hall := parseAll_defaults files ((new rootPath).root files) (new rootPath)
      (files.listDir ((new rootPath).root files))
    rcases hparse : parseAll files ((new rootPath).root files) (new rootPath)
      (files.listDir ((new rootPath).root files)) with what | rm
    · rw [hparse] at hall
      exact absurd hone (Nat.not_le.mpr hall)
    · refine ⟨rm, ?_⟩
      rw [init]
      split
      · rename_i hempty
        exact absurd hempty hne
      · exact hparse

/-! ## What a normal return establishes -/

/-- Whenever `init` returns, one configuration is named "Default" and is installed,
and the others are the candidates in the order of the files. -/
def LoadsProperly (files : Files) (rootPath : Str) : Prop :=
  ∀ rm, (new rootPath).init files = .ok rm →
    ∃ original, rm.default = some original ∧
      ((new rootPath).configurations files).filter Renderer.isDefault = [original.object] ∧
      rm.renderers.map Ptr.object = (new rootPath).candidates files

/-- A directory that has files makes `init` establish its state exactly when one of
them has a default renderer. -/
theorem loadsProperly_iff (files : Files) (rootPath : Str)
    (hne : files.listDir ((new rootPath).root files) ≠ []) :
    LoadsProperly files rootPath ↔
      ∃ r ∈ (new rootPath).configurations files, r.isDefault = true := by
  constructor
  · intro h
    by_contra hnone
    have hempty : ((new rootPath).configurations files).filter Renderer.isDefault = [] :=
      List.filter_eq_nil_iff.mpr fun r hr hdef => hnone ⟨r, hr, hdef⟩
    obtain ⟨rm, hrm⟩ := (init_returns_iff files rootPath).mpr
      ⟨hne, by rw [hempty]; exact Nat.zero_le 1⟩
    obtain ⟨original, -, hone, -⟩ := h rm hrm
    rw [hempty] at hone
    cases hone
  · intro hcase rm hrm
    obtain ⟨r, hr, hdef⟩ := hcase
    cases hdefault : rm.default with
    | none =>
      have hnone := (default_eq_none_iff hrm).mp hdefault r hr
      rw [hdef] at hnone
      cases hnone
    | some original =>
      refine ⟨original, rfl, ?_, renderers_init hrm⟩
      rw [← defaults_init hrm, defaults, hdefault]
      rfl

theorem loadsProperly_twoFiles : LoadsProperly (twoFiles "bravia".toList) [] :=
  (loadsProperly_iff (twoFiles "bravia".toList) [] (by decide)).mpr
    ⟨⟨"Default".toList, none, none⟩, by decide, by decide⟩

/-- A directory with one television makes `init` return without a default renderer. -/
theorem not_loadsProperly_tv :
    ¬ LoadsProperly { twoFiles "bravia".toList with listDir _ := ["tv.conf".toList] } [] := by
  intro h
  obtain ⟨original, hdefault, -⟩ := h _ rfl
  cases hdefault

end RendererManager
end Renderers
end MediaServer
