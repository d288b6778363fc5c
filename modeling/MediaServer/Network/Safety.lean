/-
Null pointers in the request handler.

Three pointers are followed that may be null: the User-Agent header of the
request, the default renderer, and the renderer that was chosen.  The last one
never is, by `Ready`.  The other two are null exactly for the requests that
`Servable` leaves out: those without a User-Agent, and those that no
configuration recognises while no default renderer is installed.
-/
import MediaServer.Network.Serving

namespace MediaServer
namespace Network

open Text Neptune Renderers Search Machine

/-- The request was handled without following a null pointer. -/
def NoNullPointer (outcome : Except Fault Served) : Prop :=
  ∀ fault, outcome = .error fault → fault = .pireError

/-- The request has a User-Agent, and either a default renderer is loaded or the
lookup by headers does not come out empty. -/
def Servable (pire : Pire) (files : Files) (rootPath : Str) (x : Exchange) : Prop :=
  x.HasUserAgent ∧
    ((∃ r ∈ (RendererManager.new rootPath).configurations files, r.isDefault = true) ∨
      ¬ Unrecognised pire ((RendererManager.new rootPath).candidates files) x)

section Step

variable {pire : Pire} {L : Locator socketAddressComparator} {main : MainHandler}
  {default : Option (Ptr Renderer)} {renderers : List (Ptr Renderer)}

/-- One request follows no null pointer exactly when it has a User-Agent and,
without a default renderer, is not left unrecognised. -/
theorem noNullPointer_handle_iff {rm : RendererManager} (h : Ready default renderers rm)
    (x : Exchange) :
    NoNullPointer (main.handle pire L rm x).1 ↔
      x.HasUserAgent ∧ (default ≠ none ∨ ¬ Unrecognised pire (renderers.map Ptr.object) x) := by
  have hnone : rm.findHeaders pire x.headers = .ok none ↔
      Unrecognised pire (renderers.map Ptr.object) x := by
    rw [findHeaders_none_iff, h.renderers]
  have hun (hne : rm.findHeaders pire x.headers ≠ .ok none) :
      ¬ Unrecognised pire (renderers.map Ptr.object) x := fun hmatch => hne (hnone.mpr hmatch)
  have hsafe {served : Served} : NoNullPointer (.ok served) := fun _ h => (nomatch h)
  have hcases := handling pire L main rm x
  generalize main.handle pire L rm x = outcome at hcases ⊢
  cases hcases with
  | noUserAgent hua => exact ⟨fun hok => (nomatch hok _ rfl), fun hx => absurd hx.1 hua⟩
  | known hua renderer hfind =>
    obtain ⟨original, -, hdefault, -⟩ := h.copy_of_findAddr hfind
    exact ⟨fun _ => ⟨hua, Or.inl (by rw [hdefault]; exact nofun)⟩, fun _ => hsafe⟩
  | knownNull hua hfind =>
    obtain ⟨-, copy, -, hcopy, -⟩ := h.copy_of_findAddr hfind
    cases hcopy
  | throws hua hfind fault hheaders =>
    have hne : rm.findHeaders pire x.headers ≠ .ok none := by
      rw [hheaders]
      exact nofun
    refine ⟨fun _ => ⟨hua, Or.inr (hun hne)⟩, fun _ fault' hfault => ?_⟩
    cases hfault
    exact RendererManager.findHeaders_error hheaders
  | recognised hua hfind renderer rm' hheaders =>
    have hne : rm.findHeaders pire x.headers ≠ .ok none := by
      rw [hheaders]
      exact nofun
    exact ⟨fun _ => ⟨hua, Or.inr (hun hne)⟩, fun _ => hsafe⟩
  | noDefault hua hfind hheaders hdefault =>
    refine ⟨fun hok => (nomatch hok _ rfl), fun hx => ?_⟩
    rcases hx.2 with hd | hmatch
    · exact absurd (h.default.symm.trans hdefault) hd
    · exact absurd (hnone.mp hheaders) hmatch
  | fallback hua hfind hheaders original hdefault =>
    have hd : default ≠ none := by
      rw [← h.default, hdefault]
      exact nofun
    exact ⟨fun _ => ⟨hua, Or.inl hd⟩, fun _ => hsafe⟩

end Step

/-- After a successful `init`, a run of requests follows no null pointer exactly
when every request of it is servable. -/
theorem noNullPointer_iff (pire : Pire) (L : Locator socketAddressComparator)
    (main : MainHandler) (files : Files) (rootPath : Str) (rm : RendererManager)
    (h : (RendererManager.new rootPath).init files = .ok rm) (xs : List Exchange) :
    (∀ e ∈ trace (main.handle pire L) rm xs, NoNullPointer e.output) ↔
      ∀ x ∈ xs, Servable pire files rootPath x := by
  have hdefault : rm.default ≠ none ↔
      ∃ r ∈ (RendererManager.new rootPath).configurations files, r.isDefault = true := by
    rw [ne_eq, RendererManager.default_eq_none_iff h]
    simp
  have hstep {e : Event RendererManager Exchange (Except Fault Served)}
      (he : e ∈ trace (main.handle pire L) rm xs) :
      NoNullPointer e.output ↔ Servable pire files rootPath e.input := by
    rw [output_of_mem_trace he, noNullPointer_handle_iff (ready_before (ready_init h) he),
      RendererManager.renderers_init h, hdefault, Servable]
  constructor
  · intro hsafe x hx
    obtain ⟨e, he, rfl⟩ := exists_mem_trace (main.handle pire L) rm hx
    exact (hstep he).mp (hsafe e he)
  · exact fun hall e he => (hstep he).mpr (hall _ (input_mem_of_mem_trace he))

/-- A request that a configuration recognises. -/
theorem noNullPointer_recognised :
    ∃ rm, (RendererManager.new []).init (RendererManager.twoFiles "bravia".toList) = .ok rm ∧
      ∀ e ∈ trace (MainHandler.handle .plain (.scan _) ⟨[]⟩) rm
        [exchangeWith "/".toList [⟨"User-Agent".toList, "BRAVIA".toList⟩]],
        NoNullPointer e.output := by
  refine ⟨_, rfl, (noNullPointer_iff .plain (.scan _) ⟨[]⟩
    (RendererManager.twoFiles "bravia".toList) [] _ rfl _).mpr fun x hx => ?_⟩
  rw [List.mem_singleton.mp hx]
  exact ⟨nofun, Or.inl ⟨_, List.mem_cons_self, rfl⟩⟩

/-- A request without a User-Agent follows the null pointer that `GetHeader`
returns. -/
theorem nullPointer_without_userAgent :
    ∃ rm, (RendererManager.new []).init (RendererManager.twoFiles "bravia".toList) = .ok rm ∧
      ¬ ∀ e ∈ trace (MainHandler.handle .plain (.scan _) ⟨[]⟩) rm [exchangeWith "/".toList []],
        NoNullPointer e.output :=
  ⟨_, rfl, fun h => nomatch h _ List.mem_cons_self .nullHeader rfl⟩

end Network
end MediaServer
