/-
Patterns that do not compile.

The lookup by headers tries patterns one after the other, over all
configurations, and compiles each one only when its turn comes.  `checks` is the
list of what it would try if nothing matched, and `findCandidate_eq` says that
the nested loops go through this list.  They stop at the first pattern that
matches, or throw at the first one that does not compile, so the lookup returns
if and only if every pattern that does not compile comes after one that matches:
`findHeaders_returns_iff`.
-/
import MediaServer.Renderers.Loading

namespace MediaServer
namespace Renderers

open Text Neptune

structure Check where
  pattern : Str
  text : Str

namespace Check

variable (pire : Pire)

/-- The pattern compiles and matches. -/
def Hit (c : Check) : Prop :=
  ∃ scanner, pire.compileRegexp c.pattern = some scanner ∧ pire.matchesText scanner c.text = true

/-- Every check whose pattern does not compile comes after one that hits. -/
def Guarded (cs : List Check) : Prop :=
  ∀ pre c post, cs = pre ++ c :: post → pire.compileRegexp c.pattern = none →
    ∃ c' ∈ pre, Hit pire c'

/-- The checks one after the other, up to the first one that hits. -/
def tryAll : List Check → Except Fault Bool
  | [] => .ok false
  | c :: cs =>
    match RendererManager.tryPattern pire c.pattern c.text with
    | .ok true => .ok true
    | .ok false => tryAll cs
    | .error fault => .error fault

variable {pire}

theorem tryAll_append (xs ys : List Check) :
    tryAll pire (xs ++ ys) =
      match tryAll pire xs with
      | .ok true => .ok true
      | .ok false => tryAll pire ys
      | .error fault => .error fault := by
  induction xs with
  | nil => rfl
  | cons c xs ih =>
    rw [List.cons_append, tryAll, tryAll, ih]
    rcases RendererManager.tryPattern pire c.pattern c.text with fault | _ | _ <;> rfl

theorem guarded_cons_of_hit {c : Check} (h : Hit pire c) (cs : List Check) :
    Guarded pire (c :: cs) := by
  intro pre c' post heq hnone
  cases pre with
  | nil =>
    obtain ⟨rfl, -⟩ := List.cons.inj heq
    obtain ⟨scanner, hscanner, -⟩ := h
    rw [hnone] at hscanner
    cases hscanner
  | cons d pre =>
    obtain ⟨rfl, -⟩ := List.cons.inj heq
    exact ⟨c, List.mem_cons_self, h⟩

/-- A first check that compiles and does not hit changes nothing. -/
theorem guarded_cons_of_not_hit {c : Check} (hcompiles : pire.compileRegexp c.pattern ≠ none)
    (hhit : ¬ Hit pire c) (cs : List Check) : Guarded pire (c :: cs) ↔ Guarded pire cs := by
  constructor
  · intro h pre c' post heq hnone
    obtain ⟨d, hd, hdhit⟩ := h (c :: pre) c' post (by rw [heq]; rfl) hnone
    rcases List.mem_cons.mp hd with rfl | hd
    · exact absurd hdhit hhit
    · exact ⟨d, hd, hdhit⟩
  · intro h pre c' post heq hnone
    cases pre with
    | nil =>
      obtain ⟨rfl, -⟩ := List.cons.inj heq
      exact absurd hnone hcompiles
    | cons d pre =>
      obtain ⟨rfl, htail⟩ := List.cons.inj heq
      obtain ⟨d, hd, hdhit⟩ := h pre c' post htail hnone
      exact ⟨d, List.mem_cons_of_mem _ hd, hdhit⟩

theorem tryAll_cons_of_none {c : Check} (h : pire.compileRegexp c.pattern = none)
    (cs : List Check) : tryAll pire (c :: cs) = .error .pireError := by
  rw [tryAll, RendererManager.tryPattern, h]

theorem tryAll_cons_of_hit {c : Check} (h : Hit pire c) (cs : List Check) :
    tryAll pire (c :: cs) = .ok true := by
  obtain ⟨scanner, hscanner, hmatch⟩ := h
  rw [tryAll, RendererManager.tryPattern, hscanner]
  simp only [hmatch]

theorem tryAll_cons_of_not_hit {c : Check} (hcompiles : pire.compileRegexp c.pattern ≠ none)
    (hhit : ¬ Hit pire c) (cs : List Check) : tryAll pire (c :: cs) = tryAll pire cs := by
  obtain ⟨scanner, hscanner⟩ := Option.ne_none_iff_exists'.mp hcompiles
  have hmatch : pire.matchesText scanner c.text ≠ true := fun h => hhit ⟨scanner, hscanner, h⟩
  rw [tryAll, RendererManager.tryPattern, hscanner]
  simp only [hmatch]

/-- Trying all checks returns exactly when none throws before one hits. -/
theorem tryAll_returns_iff (cs : List Check) :
    (∃ found, tryAll pire cs = .ok found) ↔ Guarded pire cs := by
  induction cs with
  | nil =>
    refine ⟨fun _ pre c post heq => ?_, fun _ => ⟨false, rfl⟩⟩
    exact absurd heq.symm (by simp)
  | cons c cs ih =>
    by_cases hcompile : pire.compileRegexp c.pattern = none
    · rw [tryAll_cons_of_none hcompile]
      constructor
      · intro hcase
        obtain ⟨_, h⟩ := hcase
        cases h
      · intro h
        obtain ⟨_, hmem, -⟩ := h [] c cs rfl hcompile
        cases hmem
    · by_cases hhit : Hit pire c
      · exact ⟨fun _ => guarded_cons_of_hit hhit cs, fun _ => ⟨true, tryAll_cons_of_hit hhit cs⟩⟩
      · rw [tryAll_cons_of_not_hit hcompile hhit, ih, guarded_cons_of_not_hit hcompile hhit]

/-- What trying all checks returns is whether one of them hits. -/
theorem tryAll_ok {cs : List Check} {found : Bool} (h : tryAll pire cs = .ok found) :
    found = true ↔ ∃ c ∈ cs, Hit pire c := by
  induction cs with
  | nil =>
    cases h
    simp
  | cons c cs ih =>
    by_cases hcompile : pire.compileRegexp c.pattern = none
    · rw [tryAll_cons_of_none hcompile] at h
      cases h
    · by_cases hhit : Hit pire c
      · rw [tryAll_cons_of_hit hhit] at h
        cases h
        exact ⟨fun _ => ⟨c, List.mem_cons_self, hhit⟩, fun _ => rfl⟩
      · rw [tryAll_cons_of_not_hit hcompile hhit] at h
        rw [ih h]
        simp [hhit]

theorem guarded_of_compiles {cs : List Check}
    (h : ∀ c ∈ cs, pire.compileRegexp c.pattern ≠ none) : Guarded pire cs := by
  intro pre c post heq hnone
  have hc : c ∈ cs := by
    rw [heq]
    exact List.mem_append_right _ List.mem_cons_self
  exact absurd hnone (h c hc)

end Check

/-! ## The checks of a lookup -/

def ExtraHeader.check (header : ExtraHeader) : Check := ⟨header.name, header.value⟩

/-- The checks for one user agent: its search pattern on the value, if there are
both, and its extra headers on their own values. -/
def UserAgent.checks (value : Option Str) (userAgent : UserAgent) : List Check :=
  (match value, userAgent.search with
    | some value, some search => [⟨search, value⟩]
    | _, _ => []) ++ userAgent.extraHeader.map ExtraHeader.check

def Renderer.checks (value : Option Str) (r : Renderer) : List Check :=
  match r.userAgent with
  | some userAgent => userAgent.checks value
  | none => []

def checks (value : Option Str) (rs : List Renderer) : List Check :=
  rs.flatMap (Renderer.checks value)

namespace RendererManager

variable {pire : Pire}

theorem tryExtraHeaders_eq (headers : List ExtraHeader) :
    tryExtraHeaders pire headers = Check.tryAll pire (headers.map ExtraHeader.check) := by
  induction headers with
  | nil => rfl
  | cons header headers ih =>
    rw [tryExtraHeaders, ih]
    rfl

theorem tryUserAgent_eq (value : Option Str) (userAgent : UserAgent) :
    tryUserAgent pire value userAgent = Check.tryAll pire (userAgent.checks value) := by
  unfold tryUserAgent UserAgent.checks
  rw [tryExtraHeaders_eq]
  cases value with
  | none => rfl
  | some value => cases userAgent.search <;> rfl

/-- The loop over the configurations goes through their checks in order. -/
theorem findCandidate_eq (value : Option Str) (candidates : List (Ptr Renderer)) :
    (findCandidate pire value candidates).map Option.isSome =
      Check.tryAll pire (checks value (candidates.map Ptr.object)) := by
  induction candidates with
  | nil => rfl
  | cons candidate candidates ih =>
    rw [findCandidate, List.map_cons, checks, List.flatMap_cons, Check.tryAll_append, ← checks,
      ← ih, Renderer.checks]
    cases candidate.object.userAgent with
    | none => rfl
    | some userAgent =>
      simp only [tryUserAgent_eq]
      rcases Check.tryAll pire (userAgent.checks value) with fault | _ | _ <;> rfl

/-- Whether a lookup by headers finds something is what trying all checks says. -/
theorem findHeaders_isSome (rm : RendererManager) (headers : Headers) :
    (rm.findHeaders pire headers).map Option.isSome =
      Check.tryAll pire (checks (userAgentValue headers) (rm.renderers.map Ptr.object)) := by
  rw [← findCandidate_eq, findHeaders]
  rcases findCandidate pire (userAgentValue headers) rm.renderers with fault | _ | candidate <;> rfl

theorem findHeaders_returns (rm : RendererManager) (headers : Headers) :
    (∃ found, rm.findHeaders pire headers = .ok found) ↔
      Check.Guarded pire (checks (userAgentValue headers) (rm.renderers.map Ptr.object)) := by
  rw [← Check.tryAll_returns_iff, ← findHeaders_isSome, Search.map_isSome_returns_iff]

/-- After a successful `init`, the lookup by headers returns exactly when every
pattern that does not compile comes after one that matches. -/
theorem findHeaders_returns_iff (pire : Pire) (files : Files) (rootPath : Str)
    (rm : RendererManager) (h : (new rootPath).init files = .ok rm) (headers : Headers) :
    (∃ found, rm.findHeaders pire headers = .ok found) ↔
      Check.Guarded pire
        (checks (userAgentValue headers) ((new rootPath).candidates files)) := by
  rw [findHeaders_returns, renderers_init h]

def twoFiles (search : Str) : Files where
  pathSeparator := '/'
  listDir _ := ["default.conf".toList, "tv.conf".toList]
  read path := if path = "resources/renderers/default.conf".toList then some "Default".toList
    else if path = "resources/renderers/tv.conf".toList then some "TV".toList else none
  textFormatParse text := if text = "TV".toList then some ⟨text, none, some ⟨some search, []⟩⟩
    else some ⟨text, none, none⟩

theorem findHeaders_returns_word :
    ∃ rm, (new []).init (twoFiles "bravia".toList) = .ok rm ∧
      ∃ found, rm.findHeaders .plain [⟨"User-Agent".toList, "BRAVIA".toList⟩] = .ok found := by
  refine ⟨_, rfl,
    (findHeaders_returns_iff .plain (twoFiles "bravia".toList) [] _ rfl _).mpr ?_⟩
  refine Check.guarded_of_compiles fun c hc => ?_
  change c ∈ [⟨"bravia".toList, "BRAVIA".toList⟩] at hc
  rw [List.mem_singleton.mp hc]
  exact nofun

/-- An unbalanced parenthesis is accepted by `init` and thrown at by the lookup. -/
theorem findHeaders_throws_parenthesis :
    ∃ rm, (new []).init (twoFiles "(".toList) = .ok rm ∧
      rm.findHeaders .plain [⟨"User-Agent".toList, "BRAVIA".toList⟩] = .error .pireError :=
  ⟨_, rfl, rfl⟩

end RendererManager
end Renderers
end MediaServer
