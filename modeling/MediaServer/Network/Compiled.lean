/-
Requests to the program as it is built, with the vendored Pire.

A request asks Pire for nothing but the checks of the configurations, and these
never change (`renderers_handle`).  So two Pires that agree on the checks serve a
run of requests alike (`trace_congr`), and with plain patterns the vendored one
serves it like case-insensitive search (`trace_vendored`).
-/
import MediaServer.Network.Serving
import MediaServer.Renderers.Vendored
import MediaServer.Server.MediaServerPP

namespace MediaServer
namespace Network

open Text Neptune Renderers Search Machine

variable {L : Locator socketAddressComparator} {main : MainHandler}

theorem renderers_handle (pire : Pire) (rm : RendererManager) (x : Exchange) :
    (main.handle pire L rm x).2.renderers = rm.renderers := by
  have hcases := handling pire L main rm x
  generalize main.handle pire L rm x = outcome at hcases ⊢
  cases hcases with
  | recognised hua hfind renderer rm' hheaders =>
    obtain ⟨rfl, -⟩ := RendererManager.copy_of_findHeaders hheaders
    rfl
  | _ => rfl

theorem handle_congr {a b : Pire} {rm : RendererManager} {x : Exchange}
    (h : rm.findHeaders a x.headers = rm.findHeaders b x.headers) :
    main.handle a L rm x = main.handle b L rm x := by
  have hchoose : MainHandler.chooseRenderer a L rm x.addr x.headers =
      MainHandler.chooseRenderer b L rm x.addr x.headers := by
    unfold MainHandler.chooseRenderer
    rw [h]
  unfold MainHandler.handle MainHandler.setupResponse
  rw [hchoose]

/-- The checks that a request may lead to. -/
def requestChecks (rm : RendererManager) (x : Exchange) : List Check :=
  checks (RendererManager.userAgentValue x.headers) (rm.renderers.map Ptr.object)

theorem requestChecks_handle (pire : Pire) (rm : RendererManager) (x y : Exchange) :
    requestChecks (main.handle pire L rm x).2 y = requestChecks rm y := by
  unfold requestChecks
  rw [renderers_handle]

/-- Pires that agree on the checks of a run serve it alike. -/
theorem trace_congr {a b : Pire} {rm : RendererManager} {xs : List Exchange}
    (h : ∀ x ∈ xs, ∀ c ∈ requestChecks rm x,
      RendererManager.tryPattern a c.pattern c.text =
        RendererManager.tryPattern b c.pattern c.text) :
    trace (main.handle a L) rm xs = trace (main.handle b L) rm xs := by
  induction xs generalizing rm with
  | nil => rfl
  | cons x xs ih =>
    have hstep : main.handle a L rm x = main.handle b L rm x :=
      handle_congr (RendererManager.findHeaders_congr (h x List.mem_cons_self))
    have hrest : ∀ y ∈ xs, ∀ c ∈ requestChecks (main.handle b L rm x).2 y,
        RendererManager.tryPattern a c.pattern c.text =
          RendererManager.tryPattern b c.pattern c.text := by
      intro y hy c hc
      rw [requestChecks_handle] at hc
      exact h y (List.mem_cons_of_mem x hy) c hc
    rw [trace, trace, event, event, hstep, ih hrest]

/-- With plain patterns in the configurations, whole runs of requests go as under
case-insensitive search: the same answers and the same managers, step by step. -/
theorem trace_vendored [MediaServer.Pire.StdPartition Nat] {u : MediaServer.Pire.Unicode}
    (hu : u.Ascii) (L : Locator socketAddressComparator) (main : MainHandler) (rm : RendererManager)
    (xs : List Exchange)
    (h : ∀ x ∈ xs, ∀ c ∈ requestChecks rm x, Pire.IsShort c.pattern ∧ Pire.IsBytes c.text) :
    trace (main.handle (.vendored u) L) rm xs = trace (main.handle .plain L) rm xs :=
  trace_congr fun x hx c hc =>
    Pire.tryPattern_vendored hu (h x hx c hc).1 (h x hx c hc).2

def braviaManager : RendererManager :=
  { RendererManager.new [] with renderers := [⟨0, RendererManager.bravia⟩] }

/-- A television and a radio. -/
theorem trace_vendored_bravia :
    trace (MainHandler.handle (.vendored .ascii) (.scan _) MediaServerPP.mainHandler) braviaManager
        [exchangeWith [] [⟨"USER-AGENT".toList, "BRAVIA 2015".toList⟩],
          exchangeWith [] [⟨"USER-AGENT".toList, "Radio".toList⟩]] =
      trace (MainHandler.handle .plain (.scan _) MediaServerPP.mainHandler) braviaManager
        [exchangeWith [] [⟨"USER-AGENT".toList, "BRAVIA 2015".toList⟩],
          exchangeWith [] [⟨"USER-AGENT".toList, "Radio".toList⟩]] := by
  refine trace_vendored MediaServer.Pire.Literal.ascii_laws _ _ _ _ fun x hx => ?_
  have htelevision : Pire.IsBytes "BRAVIA 2015".toList := by simp [Pire.IsBytes]
  have hradio : Pire.IsBytes "Radio".toList := by simp [Pire.IsBytes]
  rcases List.mem_cons.mp hx with rfl | hx
  · exact RendererManager.isShort_bravia htelevision
  · rw [List.mem_singleton.mp hx]
    exact RendererManager.isShort_bravia hradio

end Network
end MediaServer
