/-
Recognised clients over runs of requests.

A client should get the configuration that its headers match, whatever was sent
before, and keep it for later requests whose headers match nothing.  The code
looks in the store first, and the store only ever holds copies of the default
renderer.  So a client in the store is masked, `notMasked_iff`, and a client that
was recognised is not stored and gets the default renderer next time,
`isDefault_of_unrecognised`.  `remembers_iff` is what follows for two requests of a
run, and `recognition_iff` is the exact condition on the whole run.
-/
import MediaServer.Network.Serving

namespace MediaServer
namespace Network

open Text Neptune Renderers Search Machine

/-- A request of a run, with the manager it met and its outcome. -/
abbrev Step := Event RendererManager Exchange (Except Fault Served)

section Properties

variable (pire : Pire) (L : Locator socketAddressComparator)

def HeadersMatch (e : Step) : Prop :=
  ∃ found, e.before.findHeaders pire e.input.headers = .ok (some found)

def HeadersMatchNone (e : Step) : Prop := e.before.findHeaders pire e.input.headers = .ok none

/-- The request was served with `r` through its headers. -/
def ServedByHeaders (e : Step) (r : Ptr Renderer) : Prop :=
  e.before.findAddr L e.input.addr = none ∧
    (∃ rm, e.before.findHeaders pire e.input.headers = .ok (some (r, rm))) ∧
    ∃ served, e.output = .ok served ∧ served.renderer = r

/-- If its headers match, the request is not served with the default renderer. -/
def NotMasked (e : Step) : Prop :=
  HeadersMatch pire e → ∀ served, e.output = .ok served →
    served.renderer.object.isDefault = false

/-- What `e` was served with through its headers, a later `e'` from the same
address is served with when its own headers match nothing. -/
def Remembers (e e' : Step) : Prop :=
  ∀ r, ServedByHeaders pire L e r → e'.input.addr = e.input.addr → HeadersMatchNone pire e' →
    ∃ served, e'.output = .ok served ∧ served.renderer.object = r.object

end Properties

section Steps

variable {pire : Pire} {L : Locator socketAddressComparator} {main : MainHandler}
  {files : Files} {rootPath : Str} {rm : RendererManager}
  {xs : List Exchange} {e : Step}

theorem headersMatch_iff (h : (RendererManager.new rootPath).init files = .ok rm)
    (he : e ∈ trace (main.handle pire L) rm xs) :
    HeadersMatch pire e ↔
      Recognised pire ((RendererManager.new rootPath).candidates files) e.input := by
  rw [HeadersMatch, findHeaders_found_iff, (ready_before (ready_init h) he).renderers,
    RendererManager.renderers_init h]

theorem headersMatchNone_iff (h : (RendererManager.new rootPath).init files = .ok rm)
    (he : e ∈ trace (main.handle pire L) rm xs) :
    HeadersMatchNone pire e ↔
      Unrecognised pire ((RendererManager.new rootPath).candidates files) e.input := by
  rw [HeadersMatchNone, findHeaders_none_iff, (ready_before (ready_init h) he).renderers,
    RendererManager.renderers_init h]

theorem not_isDefault_of_findHeaders (h : (RendererManager.new rootPath).init files = .ok rm)
    (he : e ∈ trace (main.handle pire L) rm xs) {r : Ptr Renderer} {rm' : RendererManager}
    (hfound : e.before.findHeaders pire e.input.headers = .ok (some (r, rm'))) :
    r.object.isDefault = false := by
  obtain ⟨-, candidate, hc, rfl⟩ := RendererManager.copy_of_findHeaders hfound
  rw [(ready_before (ready_init h) he).renderers] at hc
  show candidate.object.isDefault = false
  exact RendererManager.not_isDefault_of_mem_renderers h hc

theorem isDefault_of_findAddr (h : (RendererManager.new rootPath).init files = .ok rm)
    (he : e ∈ trace (main.handle pire L) rm xs) {found : Option (Ptr Renderer)}
    (hfind : e.before.findAddr L e.input.addr = some found) :
    ∃ copy, found = some copy ∧ copy.object.isDefault = true := by
  obtain ⟨original, copy, hdefault, hfound, hcopy⟩ :=
    (ready_before (ready_init h) he).copy_of_findAddr hfind
  exact ⟨copy, hfound, hcopy ▸ RendererManager.isDefault_of_default h hdefault⟩

/-- A request whose headers match is served right exactly when its address is
not in the store. -/
theorem notMasked_iff (h : (RendererManager.new rootPath).init files = .ok rm)
    (he : e ∈ trace (main.handle pire L) rm xs) (hua : e.input.HasUserAgent)
    (hmatch : HeadersMatch pire e) :
    NotMasked pire e ↔ e.before.findAddr L e.input.addr = none := by
  have hcases := handling pire L main e.before e.input
  have hout := output_of_mem_trace he
  generalize main.handle pire L e.before e.input = outcome at hcases hout
  obtain ⟨found, hfound⟩ := hmatch
  cases hcases with
  | noUserAgent hno => exact absurd hua hno
  | known _ renderer hfind =>
    obtain ⟨copy, hcopy, hdef⟩ := isDefault_of_findAddr h he hfind
    cases hcopy
    refine ⟨fun hnot => ?_, fun hnone => ?_⟩
    · have hfalse := hnot ⟨found, hfound⟩ _ hout
      rw [MainHandler.respond_renderer, hdef] at hfalse
      cases hfalse
    · rw [hfind] at hnone
      cases hnone
  | knownNull _ hfind =>
    obtain ⟨copy, hcopy, -⟩ := isDefault_of_findAddr h he hfind
    cases hcopy
  | throws _ hfind fault hheaders =>
    rw [hfound] at hheaders
    cases hheaders
  | recognised _ hfind renderer rm' hheaders =>
    refine ⟨fun _ => hfind, fun _ _ served hserved => ?_⟩
    rw [hout] at hserved
    cases hserved
    rw [MainHandler.respond_renderer]
    exact not_isDefault_of_findHeaders h he hheaders
  | noDefault _ hfind hheaders hdefault =>
    rw [hfound] at hheaders
    cases hheaders
  | fallback _ hfind hheaders original hdefault =>
    rw [hfound] at hheaders
    cases hheaders

theorem isDefault_of_unrecognised (h : (RendererManager.new rootPath).init files = .ok rm)
    (he : e ∈ trace (main.handle pire L) rm xs) (hmatch : HeadersMatchNone pire e)
    {served : Served} (hserved : e.output = .ok served) :
    served.renderer.object.isDefault = true := by
  have hcases := handling pire L main e.before e.input
  have hout := output_of_mem_trace he
  rw [hserved] at hout
  generalize main.handle pire L e.before e.input = outcome at hcases hout
  cases hcases with
  | known _ renderer hfind =>
    obtain ⟨copy, hcopy, hdef⟩ := isDefault_of_findAddr h he hfind
    cases hcopy
    cases hout
    rw [MainHandler.respond_renderer]
    exact hdef
  | recognised _ hfind renderer rm' hheaders =>
    rw [hmatch] at hheaders
    cases hheaders
  | fallback _ hfind hheaders original hdefault =>
    cases hout
    rw [MainHandler.respond_renderer]
    rw [(ready_before (ready_init h) he).default] at hdefault
    show original.object.isDefault = true
    exact RendererManager.isDefault_of_default h hdefault
  | _ => cases hout

theorem servedByHeaders_of_recognised (he : e ∈ trace (main.handle pire L) rm xs)
    (hua : e.input.HasUserAgent) (hmatch : HeadersMatch pire e)
    (hfind : e.before.findAddr L e.input.addr = none) : ∃ r, ServedByHeaders pire L e r := by
  obtain ⟨⟨r, rm'⟩, hfound⟩ := hmatch
  refine ⟨r, hfind, ⟨rm', hfound⟩, main.respond r e.input, ?_, MainHandler.respond_renderer ..⟩
  obtain ⟨header, hheader⟩ := Option.ne_none_iff_exists'.mp hua
  rw [output_of_mem_trace he, MainHandler.handle, MainHandler.setupResponse, hheader]
  simp only [MainHandler.chooseRenderer, hfind, hfound]

/-- When recognised requests come from addresses that are not in the store, one of
them is forgotten by the first unrecognised request from its address. -/
theorem remembers_iff (h : (RendererManager.new rootPath).init files = .ok rm)
    (he : e ∈ trace (main.handle pire L) rm xs) {e' : Step}
    (he' : e' ∈ trace (main.handle pire L) rm xs) (hua : e.input.HasUserAgent)
    (hfind : Recognised pire ((RendererManager.new rootPath).candidates files) e.input →
      e.before.findAddr L e.input.addr = none) :
    Remembers pire L e e' ↔ (e'.input.addr = e.input.addr →
      Recognised pire ((RendererManager.new rootPath).candidates files) e.input →
        ¬ Unrecognised pire ((RendererManager.new rootPath).candidates files) e'.input) := by
  rw [← headersMatch_iff h he, ← headersMatchNone_iff h he']
  constructor
  · intro hrem haddr hmatch hnone
    obtain ⟨r, hr⟩ := servedByHeaders_of_recognised he hua hmatch
      (hfind ((headersMatch_iff h he).mp hmatch))
    obtain ⟨served, hserved, hobject⟩ := hrem r hr haddr hnone
    obtain ⟨-, ⟨rm', hfound⟩, -⟩ := hr
    have hdef := isDefault_of_unrecognised h he' hnone hserved
    rw [hobject, not_isDefault_of_findHeaders h he hfound] at hdef
    cases hdef
  · intro hnot r hr haddr hnone
    obtain ⟨-, ⟨rm', hfound⟩, -⟩ := hr
    exact absurd hnone (hnot haddr ⟨_, hfound⟩)

end Steps

/-- After a successful `init`, clients are recognised and remembered throughout a
run of requests with a User-Agent exactly when no request whose headers match
comes from an address in the store, and no request whose headers match nothing
follows one from the same address whose headers match. -/
theorem recognition_iff (pire : Pire) (L : Locator socketAddressComparator)
    (main : MainHandler) (files : Files) (rootPath : Str) (rm : RendererManager)
    (h : (RendererManager.new rootPath).init files = .ok rm)
    (xs : List Exchange) (hua : ∀ x ∈ xs, x.HasUserAgent) :
    ((∀ e ∈ trace (main.handle pire L) rm xs, NotMasked pire e) ∧
        (trace (main.handle pire L) rm xs).Pairwise (Remembers pire L)) ↔
      (∀ e ∈ trace (main.handle pire L) rm xs,
        Recognised pire ((RendererManager.new rootPath).candidates files) e.input →
          e.before.findAddr L e.input.addr = none) ∧
      xs.Pairwise fun x x' => x'.addr = x.addr →
        Recognised pire ((RendererManager.new rootPath).candidates files) x →
          ¬ Unrecognised pire ((RendererManager.new rootPath).candidates files) x' := by
  have hua' {e : Step} (he : e ∈ trace (main.handle pire L) rm xs) : e.input.HasUserAgent :=
    hua _ (input_mem_of_mem_trace he)
  have hmasked : (∀ e ∈ trace (main.handle pire L) rm xs, NotMasked pire e) ↔
      ∀ e ∈ trace (main.handle pire L) rm xs,
        Recognised pire ((RendererManager.new rootPath).candidates files) e.input →
          e.before.findAddr L e.input.addr = none := by
    refine forall₂_congr fun e he => ?_
    rw [← headersMatch_iff h he]
    exact ⟨fun hnot hmatch => (notMasked_iff h he (hua' he) hmatch).mp hnot,
      fun hfind hmatch => (notMasked_iff h he (hua' he) hmatch).mpr (hfind hmatch) hmatch⟩
  rw [hmasked]
  refine and_congr_right fun hfind => ?_
  rw [pairwise_input_iff (main.handle pire L) rm xs]
  exact List.Pairwise.iff_of_mem fun he he' => remembers_iff h he he' (hua' he) (hfind _ he)

/-! ## Orders that go wrong -/

/-- A client of which every request is recognised is not masked, though another
client is in the store. -/
theorem notMasked_beside_stored :
    ∃ rm, (RendererManager.new []).init (RendererManager.twoFiles "bravia".toList) = .ok rm ∧
      ∀ e ∈ trace (MainHandler.handle .plain (.scan _) ⟨[]⟩) rm
        [{ exchangeWith "/".toList [⟨"User-Agent".toList, "curl".toList⟩] with
            context := ⟨⟨⟨10, 0, 0, 2⟩, 81⟩⟩ },
          exchangeWith "/".toList [⟨"User-Agent".toList, "BRAVIA".toList⟩],
          exchangeWith "/".toList [⟨"User-Agent".toList, "BRAVIA 2015".toList⟩]],
        NotMasked .plain e := by
  refine ⟨_, rfl, ((recognition_iff .plain (.scan _) ⟨[]⟩
    (RendererManager.twoFiles "bravia".toList) [] _ rfl _ ?_).mpr ⟨?_, ?_⟩).1⟩
  · intro x hx
    simp only [List.mem_cons, List.not_mem_nil, or_false] at hx
    rcases hx with rfl | rfl | rfl <;> exact nofun
  · intro e he hrecognised
    rcases List.mem_cons.mp he with rfl | he
    · cases hrecognised
    · rcases List.mem_cons.mp he with rfl | he
      · rfl
      · rw [List.mem_singleton.mp he]
        rfl
  · refine List.pairwise_cons.mpr ⟨fun x hx haddr => ?_, List.pairwise_pair.mpr fun _ _ hnone => ?_⟩
    · simp only [List.mem_cons, List.not_mem_nil, or_false] at hx
      rcases hx with rfl | rfl <;> exact absurd haddr (by decide)
    · cases hnone

/-- A client that sends a request without a known User-Agent first is served with
the default renderer from then on. -/
theorem masked_after_unrecognised :
    ∃ rm, (RendererManager.new []).init (RendererManager.twoFiles "bravia".toList) = .ok rm ∧
      ¬ ∀ e ∈ trace (MainHandler.handle .plain (.scan _) ⟨[]⟩) rm
        [exchangeWith "/".toList [⟨"User-Agent".toList, "curl".toList⟩],
          exchangeWith "/".toList [⟨"User-Agent".toList, "BRAVIA".toList⟩]],
        NotMasked .plain e := by
  refine ⟨_, rfl, fun h => ?_⟩
  have hsecond := h _ (List.mem_cons_of_mem _ List.mem_cons_self) ⟨_, rfl⟩ _ rfl
  cases hsecond

end Network
end MediaServer
