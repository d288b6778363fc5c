/-
What one request can do, and what a run of requests keeps.

`Handling` lists the ways a request can go, each with the lookups that lead to it,
and `handling` says that `handle` always goes one of them.  Everything about runs
is derived from these cases.

`Ready` is what a run keeps: the configurations never change, and every client
in the store has a copy of the default renderer.  So the store never holds a
null pointer, and what it yields is always the default renderer.
-/
import MediaServer.Machine.Trace
import MediaServer.Network.Requests
import MediaServer.Renderers.Patterns

namespace MediaServer
namespace Network

open Text Neptune Renderers Search Machine

/-! ## The cases of a request -/

section Cases

variable (pire : Pire) (L : Locator socketAddressComparator) (main : MainHandler)
  (rm : RendererManager) (x : Exchange)

/-- The ways a request can go, with the outcome and the manager afterwards. -/
inductive Handling : Except Fault Served × RendererManager → Prop where
  | noUserAgent (hua : ¬ x.HasUserAgent) : Handling (.error .nullHeader, rm)
  | known (hua : x.HasUserAgent) (renderer : Ptr Renderer)
      (hfind : rm.findAddr L x.addr = some (some renderer)) :
      Handling (.ok (main.respond renderer x), rm)
  | knownNull (hua : x.HasUserAgent) (hfind : rm.findAddr L x.addr = some none) :
      Handling (.error .nullRenderer, rm)
  | throws (hua : x.HasUserAgent) (hfind : rm.findAddr L x.addr = none) (fault : Fault)
      (hheaders : rm.findHeaders pire x.headers = .error fault) : Handling (.error fault, rm)
  | recognised (hua : x.HasUserAgent) (hfind : rm.findAddr L x.addr = none)
      (renderer : Ptr Renderer) (rm' : RendererManager)
      (hheaders : rm.findHeaders pire x.headers = .ok (some (renderer, rm'))) :
      Handling (.ok (main.respond renderer x), rm')
  | noDefault (hua : x.HasUserAgent) (hfind : rm.findAddr L x.addr = none)
      (hheaders : rm.findHeaders pire x.headers = .ok none) (hdefault : rm.default = none) :
      Handling (.error .nullDefaultRenderer, rm)
  | fallback (hua : x.HasUserAgent) (hfind : rm.findAddr L x.addr = none)
      (hheaders : rm.findHeaders pire x.headers = .ok none) (original : Ptr Renderer)
      (hdefault : rm.default = some original) :
      Handling (.ok (main.respond (rm.fresh original.object) x),
        { rm.grown with
          clients := rm.clients.set L x.addr (some (rm.fresh original.object)) })

theorem handling : Handling pire L main rm x (main.handle pire L rm x) := by
  rw [MainHandler.handle, MainHandler.setupResponse]
  cases hua : x.headers.getHeader "USER-AGENT".toList with
  | none => exact .noUserAgent fun h => h hua
  | some header =>
    have hua : x.HasUserAgent := fun h => by rw [hua] at h; cases h
    simp only [MainHandler.chooseRenderer]
    rcases hfind : rm.findAddr L x.addr with _ | _ | renderer
    · rcases hheaders : rm.findHeaders pire x.headers with fault | _ | ⟨renderer, rm'⟩
      · exact .throws hua hfind fault hheaders
      · rw [RendererManager.defaultRenderer]
        cases hdefault : rm.default with
        | none => exact .noDefault hua hfind hheaders hdefault
        | some original => exact .fallback hua hfind hheaders original hdefault
      · exact .recognised hua hfind renderer rm' hheaders
    · exact .knownNull hua hfind
    · exact .known hua renderer hfind

end Cases

/-! ## What a run keeps -/

/-- The manager has the configurations that it was loaded with, and every client
has a copy of the default renderer. -/
structure Ready (default : Option (Ptr Renderer)) (renderers : List (Ptr Renderer))
    (rm : RendererManager) : Prop where
  default : rm.default = default
  renderers : rm.renderers = renderers
  copies : ∀ e ∈ rm.clients.entries, ∃ original copy,
    rm.default = some original ∧ e.2 = some copy ∧ copy.object = original.object

variable {pire : Pire} {L : Locator socketAddressComparator} {main : MainHandler}
  {default : Option (Ptr Renderer)} {renderers : List (Ptr Renderer)}

theorem Ready.grown {rm : RendererManager} (h : Ready default renderers rm) :
    Ready default renderers rm.grown := ⟨h.default, h.renderers, h.copies⟩

theorem ready_step (rm : RendererManager) (x : Exchange) (h : Ready default renderers rm) :
    Ready default renderers (main.handle pire L rm x).2 := by
  have hcases := handling pire L main rm x
  generalize main.handle pire L rm x = outcome at hcases ⊢
  cases hcases with
  | recognised hua hfind renderer rm' hheaders =>
    obtain ⟨rfl, -⟩ := RendererManager.copy_of_findHeaders hheaders
    exact h.grown
  | fallback hua hfind hheaders original hdefault =>
    refine ⟨h.default, h.renderers, fun e he => ?_⟩
    rcases SearchMap.mem_entries_set he with he | he
    · exact h.copies e he
    · exact ⟨original, _, hdefault, he, rfl⟩
  | _ => exact h

theorem ready_init {files : Files} {rootPath : Str} {rm : RendererManager}
    (h : (RendererManager.new rootPath).init files = .ok rm) :
    Ready rm.default rm.renderers rm := by
  refine ⟨rfl, rfl, fun e he => ?_⟩
  rw [RendererManager.clients_init h] at he
  cases he

theorem ready_before {rm : RendererManager} (h : Ready default renderers rm)
    {xs : List Exchange} {e : Event RendererManager Exchange (Except Fault Served)}
    (he : e ∈ trace (main.handle pire L) rm xs) : Ready default renderers e.before :=
  before_invariant ready_step h he

theorem Ready.copy_of_findAddr {rm : RendererManager} (h : Ready default renderers rm)
    {addr : SocketAddress} {found : Option (Ptr Renderer)}
    (hfind : rm.findAddr L addr = some found) :
    ∃ original copy, default = some original ∧ found = some copy ∧
      copy.object = original.object := by
  obtain ⟨k, hk, -⟩ := SearchMap.mem_of_find hfind
  obtain ⟨original, copy, hdefault, hcopy⟩ := h.copies _ hk
  exact ⟨original, copy, h.default.symm.trans hdefault, hcopy⟩

/-! ## Requests and configurations -/

/-- The headers of a request match a configuration. -/
def Recognised (pire : Pire) (configurations : List Renderer) (x : Exchange) : Prop :=
  Check.tryAll pire (checks (RendererManager.userAgentValue x.headers) configurations) = .ok true

def Unrecognised (pire : Pire) (configurations : List Renderer) (x : Exchange) : Prop :=
  Check.tryAll pire (checks (RendererManager.userAgentValue x.headers) configurations) = .ok false

instance (pire : Pire) (configurations : List Renderer) (x : Exchange) :
    Decidable (Recognised pire configurations x) := inferInstanceAs (Decidable (_ = _))

instance (pire : Pire) (configurations : List Renderer) (x : Exchange) :
    Decidable (Unrecognised pire configurations x) := inferInstanceAs (Decidable (_ = _))

theorem findHeaders_found_iff {rm : RendererManager} {x : Exchange} :
    (∃ found, rm.findHeaders pire x.headers = .ok (some found)) ↔
      Recognised pire (rm.renderers.map Ptr.object) x := by
  rw [Recognised, ← RendererManager.findHeaders_isSome, map_isSome_eq_true_iff]

theorem findHeaders_none_iff {rm : RendererManager} {x : Exchange} :
    rm.findHeaders pire x.headers = .ok none ↔
      Unrecognised pire (rm.renderers.map Ptr.object) x := by
  rw [Unrecognised, ← RendererManager.findHeaders_isSome, map_isSome_eq_false_iff]

end Network
end MediaServer
