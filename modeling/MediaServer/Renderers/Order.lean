/-
The order in which a directory is listed.

The operating system promises no order, and `init` keeps the configurations in the
order it gets them.  `OrderIndependent` asks that every order of the same files
lets a lookup find the same configuration, and one that is preferred by its
priority when several match.  Nothing reads the priority, so this holds exactly
when no two different configurations match: `orderIndependent_iff`.  What
preference means for two priorities plays no part.
-/
import MediaServer.Renderers.Defaults
import MediaServer.Renderers.Matching

namespace MediaServer
namespace Renderers

open Text Neptune Search

/-- The same files, in the order `entries`. -/
def Files.listed (files : Files) (entries : List Str) : Files :=
  { files with listDir := fun _ => entries }

/-- `priority()`, which is zero in a configuration that gives none. -/
def Renderer.priorityValue (r : Renderer) : UInt32 := r.priority.getD 0

namespace RendererManager

def entries (files : Files) (rootPath : Str) : List Str :=
  files.listDir ((new rootPath).root files)

/-- `init` returns, the lookup by headers does, and this is what it finds. -/
def Yields (pire : Pire) (files : Files) (rootPath : Str) (headers : Headers)
    (found : Option Renderer) : Prop :=
  ∃ rm, (new rootPath).init files = .ok rm ∧
    (rm.findHeaders pire headers).map (Option.map fun copy => copy.1.object) = .ok found

/-- Every order of the files yields the same, and the configuration found is preferred
to any other that matches. -/
def OrderIndependent (preferred : UInt32 → UInt32 → Prop) (pire : Pire) (files : Files)
    (rootPath : Str) (headers : Headers) : Prop :=
  ∃ found, (∀ listing, listing.Perm (entries files rootPath) →
      Yields pire (files.listed listing) rootPath headers found) ∧
    ∀ r, found = some r → ∀ r' ∈ (new rootPath).candidates files,
      r'.Hits pire (userAgentValue headers) → r' ≠ r → preferred r.priorityValue r'.priorityValue

section Orders

variable {files : Files} {rootPath : Str} {listing : List Str}

theorem configurations_listed (files : Files) (rootPath : Str) (listing : List Str) :
    (new rootPath).configurations (files.listed listing) =
      files.loadAll ((new rootPath).root files) listing := rfl

theorem configurations_perm (h : listing.Perm (entries files rootPath)) :
    ((new rootPath).configurations (files.listed listing)).Perm
      ((new rootPath).configurations files) :=
  h.filterMap _

theorem candidates_perm (h : listing.Perm (entries files rootPath)) :
    ((new rootPath).candidates (files.listed listing)).Perm ((new rootPath).candidates files) :=
  (configurations_perm h).filter _

/-- Any candidate can be the first one. -/
theorem exists_listing_first {r : Renderer} (hr : r ∈ (new rootPath).candidates files) :
    ∃ listing, listing.Perm (entries files rootPath) ∧
      ∃ rest, (new rootPath).candidates (files.listed listing) = r :: rest := by
  obtain ⟨hload, hdef⟩ := List.mem_filter.mp hr
  obtain ⟨file, hfile, hparsed⟩ := List.mem_filterMap.mp hload
  obtain ⟨pre, post, hsplit⟩ := List.append_of_mem hfile
  refine ⟨file :: (pre ++ post), ?_,
    (files.loadAll ((new rootPath).root files) (pre ++ post)).filter fun r => !r.isDefault, ?_⟩
  · rw [entries, hsplit]
    exact List.perm_middle.symm
  · rw [candidates, configurations_listed, loadAll_cons, hparsed, Option.toList_some,
      List.singleton_append]
    exact List.filter_cons_of_pos hdef

/-- With one default renderer, `init` returns for every order of the files. -/
theorem init_listed (hone : (((new rootPath).configurations files).filter
      Renderer.isDefault).length = 1) (h : listing.Perm (entries files rootPath)) :
    ∃ rm, (new rootPath).init (files.listed listing) = .ok rm := by
  have hperm := (configurations_perm h).filter Renderer.isDefault
  refine (init_returns_iff _ _).mpr ⟨fun hempty => ?_, hperm.length_eq.trans hone |>.le⟩
  have hnil : (new rootPath).configurations (files.listed listing) = [] := by
    rw [configurations, hempty]
    rfl
  rw [← hperm.length_eq, hnil] at hone
  cases hone

theorem yields_iff {pire : Pire} {headers : Headers} {found : Option Renderer}
    (hinit : ∃ rm, (new rootPath).init files = .ok rm) :
    Yields pire files rootPath headers found ↔
      ((new rootPath).candidates files).findM? (Renderer.test pire (userAgentValue headers)) =
        .ok found := by
  obtain ⟨rm, hrm⟩ := hinit
  rw [Yields]
  constructor
  · intro hcase
    obtain ⟨rm', hrm', hfound⟩ := hcase
    rw [findHeaders_eq, renderers_init hrm'] at hfound
    exact hfound
  · intro hfound
    refine ⟨rm, hrm, ?_⟩
    rw [findHeaders_eq, renderers_init hrm, hfound]

/-- A candidate that is listed first decides the result of a lookup. -/
theorem test_of_yields {pire : Pire} {headers : Headers} {found : Option Renderer}
    (hone : (((new rootPath).configurations files).filter Renderer.isDefault).length = 1)
    (hyields : ∀ listing, listing.Perm (entries files rootPath) →
      Yields pire (files.listed listing) rootPath headers found)
    {r : Renderer} (hr : r ∈ (new rootPath).candidates files) :
    ∃ hit, r.test pire (userAgentValue headers) = .ok hit ∧ (hit = true → found = some r) := by
  obtain ⟨listing, hperm, rest, hrest⟩ := exists_listing_first hr
  have hfound := (yields_iff (init_listed hone hperm)).mp (hyields listing hperm)
  rw [hrest, findM?_cons] at hfound
  rcases htest : r.test pire (userAgentValue headers) with fault | _ | _
  · rw [htest] at hfound
    cases hfound
  · exact ⟨false, rfl, fun hhit => absurd hhit Bool.false_ne_true⟩
  · rw [htest] at hfound
    cases hfound
    exact ⟨true, rfl, fun _ => rfl⟩

end Orders

/-- Among files with exactly one default renderer, the order does not matter exactly
when no candidate throws and all that match are the same. -/
theorem orderIndependent_iff (preferred : UInt32 → UInt32 → Prop) (pire : Pire) (files : Files)
    (rootPath : Str) (headers : Headers)
    (hone : (((new rootPath).configurations files).filter Renderer.isDefault).length = 1) :
    OrderIndependent preferred pire files rootPath headers ↔
      (∀ r ∈ (new rootPath).candidates files,
        Check.Guarded pire (r.checks (userAgentValue headers))) ∧
      ∀ r ∈ (new rootPath).candidates files, ∀ r' ∈ (new rootPath).candidates files,
        r.Hits pire (userAgentValue headers) → r'.Hits pire (userAgentValue headers) → r = r' := by
  constructor
  · intro h
    obtain ⟨found, hyields, -⟩ := h
    refine ⟨fun r hr => ?_, fun r hr r' hr' hhits hhits' => ?_⟩
    · obtain ⟨hit, htest, -⟩ := test_of_yields hone hyields hr
      exact (Renderer.test_returns_iff r).mp ⟨hit, htest⟩
    · obtain ⟨hit, htest, hfound⟩ := test_of_yields hone hyields hr
      obtain ⟨hit', htest', hfound'⟩ := test_of_yields hone hyields hr'
      have heq := hfound ((Renderer.test_ok htest).mpr hhits)
      rw [hfound' ((Renderer.test_ok htest').mpr hhits')] at heq
      exact (Option.some.inj heq).symm
  · intro hcase
    obtain ⟨hguarded, hsame⟩ := hcase
    have hok : ∀ r ∈ (new rootPath).candidates files,
        ∃ hit, r.test pire (userAgentValue headers) = .ok hit :=
      fun r hr => (Renderer.test_returns_iff r).mpr (hguarded r hr)
    have hsame' : ∀ r ∈ (new rootPath).candidates files, ∀ r' ∈ (new rootPath).candidates files,
        r.test pire (userAgentValue headers) = .ok true →
          r'.test pire (userAgentValue headers) = .ok true → r = r' :=
      fun r hr r' hr' htest htest' => hsame r hr r' hr' ((Renderer.test_ok htest).mp rfl)
        ((Renderer.test_ok htest').mp rfl)
    obtain ⟨found, hfound⟩ := findM?_returns hok
    refine ⟨found, fun listing hperm => ?_, fun r hr r' hr' hhits hne => ?_⟩
    · rw [yields_iff (init_listed hone hperm), ← hfound]
      exact (findM?_eq_of_perm (candidates_perm hperm).symm hok hsame').symm
    -- Nothing else matches, so the preference is not asked for.
    · subst hr
      obtain ⟨hmem, htest⟩ := mem_of_findM? hfound
      exact absurd (hsame r' hr' r hmem hhits ((Renderer.test_ok htest).mp rfl)) hne

def tv : Renderer := ⟨"tv".toList, some 1, some ⟨some "tv".toList, []⟩⟩

def radio : Renderer := ⟨"radio".toList, some 2, some ⟨some "radio".toList, []⟩⟩

def tvAndRadio : Files where
  pathSeparator := '/'
  listDir _ := ["default.conf".toList, "tv.conf".toList, "radio.conf".toList]
  read path :=
    if path = "resources/renderers/default.conf".toList then some "Default".toList
    else if path = "resources/renderers/tv.conf".toList then some "tv".toList
    else some "radio".toList
  textFormatParse text :=
    if text = "tv".toList then some tv
    else if text = "radio".toList then some radio
    else some ⟨text, none, none⟩

theorem orderIndependent_sony :
    OrderIndependent (· < ·) .plain tvAndRadio [] [⟨"User-Agent".toList, "Sony TV".toList⟩] := by
  have hradio : ¬ radio.Hits .plain (some "Sony TV".toList) := Renderer.not_hits_of_test rfl
  refine (orderIndependent_iff _ _ _ _ _ (by decide)).mpr ?_
  show (∀ r ∈ [tv, radio], _) ∧ ∀ r ∈ [tv, radio], ∀ r' ∈ [tv, radio], _
  simp only [List.forall_mem_cons]
  refine ⟨⟨?_, ?_, nofun⟩, ⟨fun _ _ => trivial, fun _ h => absurd h hradio, nofun⟩,
    ⟨fun h _ => absurd h hradio, fun _ _ => trivial, nofun⟩, nofun⟩
  · exact (Renderer.test_returns_iff tv).mp ⟨true, rfl⟩
  · exact (Renderer.test_returns_iff radio).mp ⟨false, rfl⟩

/-- Two configurations match, with different priorities, and the first file wins. -/
theorem not_orderIndependent_radio :
    ¬ OrderIndependent (· < ·) .plain tvAndRadio []
      [⟨"User-Agent".toList, "TV radio".toList⟩] := by
  intro h
  obtain ⟨found, hyields, -⟩ := h
  have htv := (yields_iff ⟨_, rfl⟩).mp (hyields
    ["default.conf".toList, "tv.conf".toList, "radio.conf".toList] (by decide))
  have hradio := (yields_iff ⟨_, rfl⟩).mp (hyields
    ["default.conf".toList, "radio.conf".toList, "tv.conf".toList] (by decide))
  change Except.ok (some tv) = _ at htv
  change Except.ok (some radio) = _ at hradio
  rw [← hradio] at htv
  exact absurd htv (by decide)

end RendererManager
end Renderers
end MediaServer
