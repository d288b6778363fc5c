/-
What the extra headers of a configuration are tried on.

An extra header names a header of the request and gives the value that a device
sends in it.  `Requested` reads it so.  The lookup instead tries the name, as a
pattern, on the value that stands beside it, and the request plays no part:
`Hits`.  `meetsSpecification_iff` says for which configurations and requests the
lookup still answers as it should.
-/
import MediaServer.Renderers.Matching

namespace MediaServer
namespace Renderers

open Text Neptune Search

section Requested

variable (pire : Pire) (headers : Headers)

def ExtraHeader.Requested (extra : ExtraHeader) : Prop :=
  ∃ header ∈ headers, compare true header.name extra.name = 0 ∧
    Check.Hit pire ⟨extra.value, header.value⟩

/-- The request is from a device with this user agent: its User-Agent header matches
the search pattern, or it carries one of the extra headers. -/
def UserAgent.Requested (userAgent : UserAgent) : Prop :=
  (∃ value search, RendererManager.userAgentValue headers = some value ∧
      userAgent.search = some search ∧ Check.Hit pire ⟨search, value⟩) ∨
    ∃ extra ∈ userAgent.extraHeader, extra.Requested pire headers

def Renderer.Requested (r : Renderer) : Prop :=
  ∃ userAgent, r.userAgent = some userAgent ∧ userAgent.Requested pire headers

end Requested

namespace RendererManager

variable (pire : Pire) (rm : RendererManager) (headers : Headers)

/-- `RendererManager::find(headers, renderer)`: what it returns, what it leaves in
`renderer`, and the manager afterwards. -/
def find (renderer : Option (Ptr Renderer)) :
    Except Fault (Bool × Option (Ptr Renderer) × RendererManager) :=
  match rm.findHeaders pire headers with
  | .ok (some (copy, rm')) => .ok (true, some copy, rm')
  | .ok none => .ok (false, renderer, rm)
  | .error fault => .error fault

/-- The lookup returns, it returns true when the request is from a device of some
configuration, and it leaves a copy of the first such configuration. -/
def MeetsSpecification : Prop :=
  ∀ renderer, ∃ found renderer' rm',
    find pire rm headers renderer = .ok (found, renderer', rm') ∧
      (found = true ↔ ∃ r ∈ rm.renderers.map Ptr.object, r.Requested pire headers) ∧
      (found = true → ∃ r,
        IsFirst (Renderer.Requested pire headers) (rm.renderers.map Ptr.object) r ∧
          renderer' = some (rm.fresh r)) ∧
      (found = false → renderer' = renderer)

variable {pire rm headers}

/-- The lookup answers for the configurations that its own checks hit. -/
theorem find_cases (hreturns : ∃ found, rm.findHeaders pire headers = .ok found)
    (renderer : Option (Ptr Renderer)) :
    (∃ r, IsFirst (Renderer.Hits pire (userAgentValue headers)) (rm.renderers.map Ptr.object) r ∧
      find pire rm headers renderer = .ok (true, some (rm.fresh r), rm.grown)) ∨
    ((∀ r ∈ rm.renderers.map Ptr.object, ¬ r.Hits pire (userAgentValue headers)) ∧
      find pire rm headers renderer = .ok (false, renderer, rm)) := by
  obtain ⟨found, hfound⟩ := hreturns
  rw [find, hfound]
  cases found with
  | none => exact Or.inr ⟨not_hits_of_findHeaders hfound, rfl⟩
  | some found =>
    obtain ⟨copy, rm'⟩ := found
    have hfirst := isFirst_of_findHeaders hfound
    obtain ⟨rfl, candidate, -, rfl⟩ := copy_of_findHeaders hfound
    exact Or.inl ⟨candidate.object, hfirst, rfl⟩

theorem find_error {fault : Fault} (h : rm.findHeaders pire headers = .error fault)
    (renderer : Option (Ptr Renderer)) : find pire rm headers renderer = .error fault := by
  rw [find, h]

/-- The lookup meets its specification exactly when it does not throw, and every
configuration that could be the first to be found by the checks or by the request
is found by both or by neither. -/
theorem meetsSpecification_iff (pire : Pire) (rm : RendererManager) (headers : Headers) :
    MeetsSpecification pire rm headers ↔
      Check.Guarded pire (checks (userAgentValue headers) (rm.renderers.map Ptr.object)) ∧
        Agree (Renderer.Hits pire (userAgentValue headers)) (Renderer.Requested pire headers)
          (rm.renderers.map Ptr.object) := by
  rw [← findHeaders_returns, agree_iff]
  constructor
  · intro h
    obtain ⟨found, renderer', rm', hfind, htrue, hfirst, -⟩ := h none
    have hreturns : ∃ found, rm.findHeaders pire headers = .ok found := by
      rcases hheaders : rm.findHeaders pire headers with fault | found
      · rw [find_error hheaders] at hfind
        cases hfind
      · exact ⟨found, rfl⟩
    refine ⟨hreturns, fun a => ?_⟩
    rcases find_cases hreturns none with ⟨r, hr, heq⟩ | ⟨hnone, heq⟩
    · rw [heq] at hfind
      cases hfind
      -- The copies agree, so the first of either kind is the same configuration.
      obtain ⟨r', hr', hcopy⟩ := hfirst rfl
      cases hcopy
      exact ⟨fun ha => ha.unique hr ▸ hr', fun ha => ha.unique hr' ▸ hr⟩
    · rw [heq] at hfind
      cases hfind
      constructor
      · exact fun ha => absurd ha.holds (hnone a ha.mem)
      · exact fun ha => absurd (htrue.mpr ⟨a, ha.mem, ha.holds⟩) Bool.false_ne_true
  · intro hcase renderer
    obtain ⟨hreturns, hagree⟩ := hcase
    rcases find_cases hreturns renderer with ⟨r, hr, heq⟩ | ⟨hnone, heq⟩
    · have hr' := (hagree r).mp hr
      exact ⟨true, _, _, heq, ⟨fun _ => ⟨r, hr'.mem, hr'.holds⟩, fun _ => rfl⟩,
        fun _ => ⟨r, hr', rfl⟩, fun h => absurd h.symm Bool.false_ne_true⟩
    · refine ⟨false, _, _, heq, ⟨fun h => absurd h Bool.false_ne_true, fun h => ?_⟩,
        fun h => absurd h Bool.false_ne_true, fun _ => rfl⟩
      obtain ⟨a, ha⟩ := exists_isFirst h
      exact absurd ((hagree a).mpr ha).holds (hnone a ha.mem)

def panasonic : Renderer where
  name := "Panasonic S60".toList
  priority := none
  userAgent := some
    { search := some "Mozilla".toList
      extraHeader := [⟨"X-PANASONIC-Registration".toList, "VklFUkEgUzYw".toList⟩] }

/-- A device that sends the extra header of its configuration is not found. -/
theorem not_meetsSpecification_panasonic :
    ¬ MeetsSpecification .plain { new [] with renderers := [⟨0, panasonic⟩] }
      [⟨"USER-AGENT".toList, "Viera".toList⟩,
        ⟨"X-PANASONIC-Registration".toList, "VklFUkEgUzYw".toList⟩] := by
  intro h
  obtain ⟨found, renderer', rm', hfind, htrue, -⟩ := h none
  have hrequested : panasonic.Requested .plain
      [⟨"USER-AGENT".toList, "Viera".toList⟩,
        ⟨"X-PANASONIC-Registration".toList, "VklFUkEgUzYw".toList⟩] :=
    ⟨_, rfl, Or.inr ⟨_, List.mem_cons_self, _, List.mem_cons_of_mem _ List.mem_cons_self,
      by decide, _, rfl, rfl⟩⟩
  have hfound := htrue.mpr ⟨panasonic, List.mem_cons_self, hrequested⟩
  cases hfind
  cases hfound

end RendererManager
end Renderers
end MediaServer
