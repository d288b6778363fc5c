/-
One configuration against a request.

`Renderer.test` tries the checks of one configuration, as the body of the loop over
the configurations does, and `findHeaders_eq` says that the lookup by headers is the
search for the first configuration that passes it.  A test that returns says whether
some check of the configuration hits: `test_ok`.
-/
import MediaServer.Renderers.Patterns

namespace MediaServer
namespace Renderers

open Text Neptune Search

namespace Renderer

variable (pire : Pire) (value : Option Str)

def test (r : Renderer) : Except Fault Bool := Check.tryAll pire (r.checks value)

/-- Some check of the configuration hits. -/
def Hits (r : Renderer) : Prop := ∃ c ∈ r.checks value, c.Hit pire

variable {pire value}

theorem test_ok {r : Renderer} {found : Bool} (h : r.test pire value = .ok found) :
    found = true ↔ r.Hits pire value := Check.tryAll_ok h

theorem not_hits_of_test {r : Renderer} (h : r.test pire value = .ok false) :
    ¬ r.Hits pire value := by
  intro hhits
  cases (test_ok h).mpr hhits

theorem test_returns_iff (r : Renderer) :
    (∃ found, r.test pire value = .ok found) ↔ Check.Guarded pire (r.checks value) :=
  Check.tryAll_returns_iff _

end Renderer

namespace RendererManager

variable {pire : Pire}

/-- The body of the loop tries the checks of the configuration. -/
theorem tryRenderer_eq (value : Option Str) (r : Renderer) :
    tryRenderer pire value r = r.test pire value := by
  rw [tryRenderer, Renderer.test, Renderer.checks]
  cases r.userAgent with
  | none => rfl
  | some userAgent => exact tryUserAgent_eq value userAgent

/-- What a lookup by headers finds, as a configuration. -/
theorem findHeaders_eq (pire : Pire) (rm : RendererManager) (headers : Headers) :
    (rm.findHeaders pire headers).map (Option.map fun found => found.1.object) =
      (rm.renderers.map Ptr.object).findM? (Renderer.test pire (userAgentValue headers)) := by
  simp only [findM?_map, ← tryRenderer_eq]
  rw [← findCandidate_eq_findM?, findHeaders]
  rcases findCandidate pire (userAgentValue headers) rm.renderers with fault | _ | candidate <;> rfl

/-- The configuration that a lookup by headers copies is the first that some check hits. -/
theorem isFirst_of_findHeaders {rm rm' : RendererManager} {headers : Headers}
    {renderer : Ptr Renderer} (h : rm.findHeaders pire headers = .ok (some (renderer, rm'))) :
    IsFirst (Renderer.Hits pire (userAgentValue headers)) (rm.renderers.map Ptr.object)
      renderer.object := by
  have heq := findHeaders_eq pire rm headers
  rw [h] at heq
  obtain ⟨pre, post, hsplit, htrue, hpre⟩ := findM?_eq_some_iff.mp heq.symm
  exact ⟨pre, post, hsplit, (Renderer.test_ok htrue).mp rfl,
    fun r hr => Renderer.not_hits_of_test (hpre r hr)⟩

theorem not_hits_of_findHeaders {rm : RendererManager} {headers : Headers}
    (h : rm.findHeaders pire headers = .ok none) :
    ∀ r ∈ rm.renderers.map Ptr.object, ¬ r.Hits pire (userAgentValue headers) := by
  have heq := findHeaders_eq pire rm headers
  rw [h] at heq
  exact fun r hr => Renderer.not_hits_of_test (findM?_eq_none_iff.mp heq.symm r hr)

end RendererManager
end Renderers
end MediaServer
