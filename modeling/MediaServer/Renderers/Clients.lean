/-
The store of renderers per client, over whole runs.

A run is a sequence of calls of `find(addr)` and `defaultRenderer(addr)`.  What
the store should be is a finite map from addresses to the renderer stored last,
and `ExactStore` says so for one address and all addresses that occur in a run.

Two things take exactness away.  Without a default renderer the first call of
`defaultRenderer` follows a null pointer, and the program ends there.  With one,
the comparator leaves many different addresses tied, for example two that differ
in one part only, and tied addresses share an entry.  `exactStore_iff` says that
these are the only two: the store is a finite map if and only if every store has
a default renderer to copy and its address is apart from all other addresses
looked at.
-/
import MediaServer.Machine.Trace
import MediaServer.Renderers.Manager
import MediaServer.Search.Tree

namespace MediaServer
namespace Renderers
namespace Clients

open Text Neptune Search Machine

inductive Call where
  | find (addr : SocketAddress)
  | defaultRenderer (addr : SocketAddress)
  deriving DecidableEq

def Call.addr : Call → SocketAddress
  | find a => a
  | defaultRenderer a => a

/-- What a call returns: `found` and `notFound` are the two results of `find`. -/
inductive Answer where
  | found (renderer : Option (Ptr Renderer))
  | notFound
  | stored (renderer : Ptr Renderer)
  | fault (fault : Fault)
  deriving DecidableEq

/-- What `find` returns. -/
def Answer.ofFind : Option (Option (Ptr Renderer)) → Answer
  | some renderer => found renderer
  | none => notFound

/-- The manager, or the fault that has ended the program. -/
abbrev State := Except Fault RendererManager

section Run

variable (L : Locator socketAddressComparator)

def step : State → Call → Answer × State
  | .ok rm, .find addr => (.ofFind (rm.findAddr L addr), .ok rm)
  | .ok rm, .defaultRenderer addr =>
    match rm.defaultRenderer L addr with
    | .ok (renderer, rm') => (.stored renderer, .ok rm')
    | .error fault => (.fault fault, .error fault)
  | .error fault, _ => (.fault fault, .error fault)

def run (rm : RendererManager) (calls : List Call) : State := final (step L) (.ok rm) calls

/-- What `find(a)` would return after a run. -/
def lookup (rm : RendererManager) (calls : List Call) (a : SocketAddress) : Answer :=
  (step L (run L rm calls) (.find a)).1

/-- The renderer that an event stores under `a`. -/
def storedAt (a : SocketAddress) (e : Event State Call Answer) : Option (Ptr Renderer) :=
  match e.input, e.output with
  | .defaultRenderer b, .stored renderer => if b = a then some renderer else none
  | _, _ => none

/-- The renderer that the latest `defaultRenderer(a)` of a run stored. -/
def latest (rm : RendererManager) (calls : List Call) (a : SocketAddress) :
    Option (Ptr Renderer) :=
  (trace (step L) (.ok rm) calls).reverse.findSome? (storedAt a)

/-- The addresses of the calls of `defaultRenderer`. -/
def stores (calls : List Call) : List SocketAddress :=
  calls.filterMap fun
    | .defaultRenderer b => some b
    | .find _ => none

/-- The store is a finite map at `a` and at all addresses of the calls, after
every part of the run: `find` returns true for the addresses that
`defaultRenderer` was called with, it yields what was stored last under that very
address, and no call for another address changes what it returns. -/
def ExactStore (rm : RendererManager) (calls : List Call) (a : SocketAddress) : Prop :=
  ∀ pre, pre <+: calls → ∀ a' ∈ a :: calls.map Call.addr,
    ((∃ renderer, lookup L rm pre a' = .found renderer) ↔ .defaultRenderer a' ∈ pre) ∧
    (∀ renderer, lookup L rm pre a' = .found renderer → latest L rm pre a' = renderer) ∧
    ∀ c, pre ++ [c] <+: calls → c.addr ≠ a' →
      lookup L rm (pre ++ [c]) a' = lookup L rm pre a'

/-- There is a default renderer, or nothing is to be stored. -/
def Served (rm : RendererManager) (calls : List Call) : Prop :=
  rm.default.isSome = true ∨ stores calls = []

/-- Every address of a store is apart from all other addresses looked at. -/
def Separated (calls : List Call) (a : SocketAddress) : Prop :=
  ∀ b ∈ stores calls, ∀ a' ∈ a :: calls.map Call.addr,
    a' = b ∨ Apart socketAddressComparator a' b

instance (rm : RendererManager) (calls : List Call) : Decidable (Served rm calls) :=
  inferInstanceAs (Decidable (_ ∨ _))

instance (calls : List Call) (a : SocketAddress) : Decidable (Separated calls a) :=
  inferInstanceAs (Decidable (∀ b ∈ _, ∀ a' ∈ _, _ ∨ _))

end Run

/-! ## Steps -/

variable {L : Locator socketAddressComparator} {rm rm' : RendererManager}

theorem step_find (s : State) (a : SocketAddress) : (step L s (.find a)).2 = s := by
  cases s <;> rfl

theorem step_null (h : rm.default = none) (a : SocketAddress) :
    step L (.ok rm) (.defaultRenderer a) =
      (.fault .nullDefaultRenderer, .error .nullDefaultRenderer) := by
  rw [step, RendererManager.defaultRenderer, h]

theorem step_store {original : Ptr Renderer} (h : rm.default = some original)
    (a : SocketAddress) :
    step L (.ok rm) (.defaultRenderer a) = (.stored (rm.fresh original.object),
      .ok { rm.grown with clients := rm.clients.set L a (some (rm.fresh original.object)) }) := by
  rw [step, RendererManager.defaultRenderer, h]

theorem run_append_singleton (calls : List Call) (c : Call) :
    run L rm (calls ++ [c]) = (step L (run L rm calls) c).2 :=
  final_append_singleton (Except.ok rm : State) calls c

theorem run_append_find (calls : List Call) (a : SocketAddress) :
    run L rm (calls ++ [.find a]) = run L rm calls := by
  rw [run_append_singleton, step_find]

theorem latest_append_singleton (calls : List Call) (c : Call) (a : SocketAddress) :
    latest L rm (calls ++ [c]) a =
      (storedAt a (event (step L) (run L rm calls) c)).or (latest L rm calls a) := by
  rw [latest, trace_append_singleton, List.reverse_append, List.reverse_singleton,
    List.singleton_append, List.findSome?_cons, ← run]
  cases storedAt a (event (step L) (run L rm calls) c) <;> rfl

theorem latest_find (calls : List Call) (b a : SocketAddress) :
    latest L rm (calls ++ [.find b]) a = latest L rm calls a := by
  rw [latest_append_singleton]
  rfl

theorem mem_stores {calls : List Call} {b : SocketAddress} :
    b ∈ stores calls ↔ Call.defaultRenderer b ∈ calls := by
  rw [stores, List.mem_filterMap]
  constructor
  · intro hcase
    obtain ⟨c, hc, hb⟩ := hcase
    cases c with
    | find a => cases hb
    | defaultRenderer a =>
      cases hb
      exact hc
  · exact fun hb => ⟨_, hb, rfl⟩

theorem stores_subset {pre calls : List Call} (hpre : pre <+: calls) :
    stores pre ⊆ stores calls :=
  fun _ hb => mem_stores.mpr (hpre.subset (mem_stores.mp hb))

theorem lookup_ok {calls : List Call} (hrun : run L rm calls = .ok rm') (a : SocketAddress) :
    lookup L rm calls a = .ofFind (rm'.findAddr L a) := by
  rw [lookup, hrun]
  rfl

theorem Answer.ofFind_eq_found {result : Option (Option (Ptr Renderer))}
    {renderer : Option (Ptr Renderer)} :
    ofFind result = found renderer ↔ result = some renderer := by
  cases result with
  | none =>
    constructor
    · intro h
      cases h
    · intro h
      cases h
  | some r =>
    show found r = found renderer ↔ _
    rw [found.injEq, Option.some_inj]

theorem lookup_eq_found {calls : List Call} (hrun : run L rm calls = .ok rm')
    {a : SocketAddress} {renderer : Option (Ptr Renderer)} :
    lookup L rm calls a = .found renderer ↔ rm'.findAddr L a = some renderer := by
  rw [lookup_ok hrun, Answer.ofFind_eq_found]

/-! ## Runs without a default renderer -/

section Null

variable {calls : List Call} {a : SocketAddress}

/-- The manager is as it was at first, or the program has ended. -/
def Unserved (rm : RendererManager) (s : State) : Prop :=
  s = .ok rm ∨ s = .error .nullDefaultRenderer

theorem unserved_step (h : rm.default = none) (s : State) (c : Call) (hs : Unserved rm s) :
    Unserved rm (step L s c).2 := by
  rcases hs with rfl | rfl
  · cases c with
    | find a => exact Or.inl (step_find _ a)
    | defaultRenderer a =>
      rw [step_null h]
      exact Or.inr rfl
  · exact Or.inr rfl

theorem unserved_run (h : rm.default = none) (calls : List Call) :
    Unserved rm (run L rm calls) :=
  final_invariant (unserved_step h) (Or.inl rfl) calls

/-- Nothing is ever found. -/
theorem lookup_null (h : rm.default = none) (hempty : rm.clients = .empty) (calls : List Call)
    (a : SocketAddress) (renderer : Option (Ptr Renderer)) :
    lookup L rm calls a ≠ .found renderer := by
  intro hfound
  rcases unserved_run (L := L) h calls with hrun | hrun
  · rw [lookup_eq_found hrun, RendererManager.findAddr, hempty, SearchMap.find_empty] at hfound
    cases hfound
  · rw [lookup, hrun] at hfound
    cases hfound

theorem run_of_stores_eq_nil (h : stores calls = []) : run L rm calls = .ok rm := by
  induction calls using List.reverseRecOn with
  | nil => rfl
  | append_singleton calls c ih =>
    have hnone : ∀ b, Call.defaultRenderer b ∉ calls ++ [c] := by
      intro b hb
      rw [← mem_stores, h] at hb
      cases hb
    have hcalls : stores calls = [] := by
      refine List.eq_nil_iff_forall_not_mem.mpr fun b hb => hnone b ?_
      exact List.mem_append_left _ (mem_stores.mp hb)
    cases c with
    | find a => rw [run_append_find, ih hcalls]
    | defaultRenderer b => exact absurd (List.mem_append_right _ List.mem_cons_self) (hnone b)

theorem exactStore_of_stores_eq_nil (hempty : rm.clients = .empty) (h : stores calls = []) :
    ExactStore L rm calls a := by
  intro pre hpre a' ha'
  have hnil : ∀ pre', pre' <+: calls → stores pre' = [] := fun pre' hpre' =>
    List.eq_nil_of_subset_nil (h ▸ stores_subset hpre')
  have hlookup : ∀ pre', pre' <+: calls → lookup L rm pre' a' = .notFound := by
    intro pre' hpre'
    rw [lookup_ok (run_of_stores_eq_nil (hnil pre' hpre')), RendererManager.findAddr, hempty,
      SearchMap.find_empty]
    rfl
  have hnone : Call.defaultRenderer a' ∉ pre := by
    rw [← mem_stores, hnil pre hpre]
    exact List.not_mem_nil
  rw [hlookup pre hpre]
  refine ⟨⟨?_, fun hmem => absurd hmem hnone⟩, ?_, fun c hc _ => hlookup _ hc⟩
  · rintro ⟨renderer, hfound⟩
    cases hfound
  · intro renderer hfound
    cases hfound

end Null

/-! ## Runs with a default renderer -/

section Installed

variable {original : Ptr Renderer} {calls : List Call} {a : SocketAddress}

/-- The program goes on, and its default renderer is the one installed. -/
def Serving (original : Ptr Renderer) (s : State) : Prop :=
  ∃ rm, s = .ok rm ∧ rm.default = some original

theorem serving_step (s : State) (c : Call) (hs : Serving original s) :
    Serving original (step L s c).2 := by
  obtain ⟨rm, rfl, hd⟩ := hs
  cases c with
  | find a => exact ⟨rm, step_find _ a, hd⟩
  | defaultRenderer a =>
    rw [step_store hd]
    exact ⟨_, rfl, hd⟩

theorem exists_run (h : rm.default = some original) (calls : List Call) :
    ∃ rm', run L rm calls = .ok rm' ∧ rm'.default = some original :=
  final_invariant serving_step ⟨rm, rfl, h⟩ calls

theorem run_append_store (h : rm.default = some original) (hrun : run L rm calls = .ok rm')
    (a : SocketAddress) : run L rm (calls ++ [.defaultRenderer a]) =
      .ok { rm'.grown with
        clients := rm'.clients.set L a (some (rm'.fresh original.object)) } := by
  obtain ⟨rm'', hrun', hd⟩ := exists_run (L := L) h calls
  cases hrun.symm.trans hrun'
  rw [run_append_singleton, hrun, step_store hd]

theorem latest_store (h : rm.default = some original) (hrun : run L rm calls = .ok rm')
    (b a : SocketAddress) :
    latest L rm (calls ++ [.defaultRenderer b]) a =
      if b = a then some (rm'.fresh original.object) else latest L rm calls a := by
  obtain ⟨rm'', hrun', hd⟩ := exists_run (L := L) h calls
  cases hrun.symm.trans hrun'
  rw [latest_append_singleton, event, hrun, step_store hd]
  show (if b = a then some (rm'.fresh original.object) else none).or _ = _
  split <;> rfl

theorem mem_stores_of_mem_keys (h : rm.default = some original) (hempty : rm.clients = .empty)
    (hrun : run L rm calls = .ok rm') {k : SocketAddress} (hk : k ∈ rm'.clients.keys) :
    k ∈ stores calls := by
  rw [mem_stores]
  induction calls using List.reverseRecOn generalizing rm' with
  | nil =>
    cases hrun
    rw [hempty] at hk
    cases hk
  | append_singleton calls c ih =>
    obtain ⟨rm'', hrun', -⟩ := exists_run (L := L) h calls
    rw [List.mem_append]
    cases c with
    | find a =>
      rw [run_append_find] at hrun
      exact Or.inl (ih hrun hk)
    | defaultRenderer a =>
      rw [run_append_store h hrun'] at hrun
      cases hrun
      rcases SearchMap.mem_keys_set k _ hk with hk | rfl
      · exact Or.inl (ih hrun' hk)
      · exact Or.inr List.mem_cons_self

/-- A renderer stored earlier lives below the next free location. -/
theorem location_lt_of_latest (h : rm.default = some original)
    (hrun : run L rm calls = .ok rm') {p : Ptr Renderer} (hp : latest L rm calls a = some p) :
    p.location < rm'.allocated := by
  induction calls using List.reverseRecOn generalizing rm' with
  | nil => cases hp
  | append_singleton calls c ih =>
    obtain ⟨rm'', hrun', -⟩ := exists_run (L := L) h calls
    cases c with
    | find b =>
      rw [latest_find] at hp
      rw [run_append_find] at hrun
      exact ih hrun hp
    | defaultRenderer b =>
      rw [latest_store h hrun'] at hp
      rw [run_append_store h hrun'] at hrun
      cases hrun
      show p.location < rm''.allocated + 1
      split at hp
      · cases hp
        exact Nat.lt_succ_self _
      · exact Nat.lt_succ_of_lt (ih hrun' hp)

/-- A renderer just stored is a new one, which no other address can show. -/
theorem eq_of_latest_fresh (h : rm.default = some original) (hrun : run L rm calls = .ok rm')
    {b k : SocketAddress} (hk : latest L rm (calls ++ [.defaultRenderer b]) k =
      some (rm'.fresh original.object)) : b = k := by
  rw [latest_store h hrun] at hk
  by_contra hbk
  rw [if_neg hbk] at hk
  exact Nat.lt_irrefl _ (location_lt_of_latest h hrun hk)

theorem latest_isSome_iff (h : rm.default = some original) (calls : List Call)
    (a : SocketAddress) :
    (latest L rm calls a).isSome = true ↔ Call.defaultRenderer a ∈ calls := by
  induction calls using List.reverseRecOn with
  | nil => exact ⟨fun hnil => absurd hnil Bool.false_ne_true,
      fun hnil => absurd hnil List.not_mem_nil⟩
  | append_singleton calls c ih =>
    obtain ⟨rm', hrun, -⟩ := exists_run (L := L) h calls
    rw [List.mem_append, List.mem_singleton, ← ih]
    cases c with
    | find b =>
      rw [latest_find]
      exact ⟨Or.inl, fun hcase => hcase.resolve_right fun hb => by cases hb⟩
    | defaultRenderer b =>
      rw [latest_store h hrun, Call.defaultRenderer.injEq]
      split
      · rename_i hb
        exact ⟨fun _ => Or.inr hb.symm, fun _ => rfl⟩
      · rename_i hb
        exact ⟨Or.inl, fun hcase => hcase.resolve_right fun hab => hb hab.symm⟩

/-! ## Separated addresses are kept exactly -/

theorem eq_of_tied_of_separated (hsep : Separated calls a) {b a' : SocketAddress}
    (hb : b ∈ stores calls) (ha' : a' ∈ a :: calls.map Call.addr)
    (ht : Tied socketAddressComparator b a') : b = a' := by
  rcases hsep b hb a' ha' with heq | hapart
  · exact heq.symm
  · exact absurd ht.symm (not_tied.mpr hapart)

theorem alone_of_separated (h : rm.default = some original) (hempty : rm.clients = .empty)
    (hsep : Separated calls a) {pre : List Call} (hpre : pre <+: calls)
    (hrun : run L rm pre = .ok rm') {a' : SocketAddress} (ha' : a' ∈ a :: calls.map Call.addr) :
    rm'.clients.Alone a' := by
  intro k hk ht
  exact eq_of_tied_of_separated hsep
    (stores_subset hpre (mem_stores_of_mem_keys h hempty hrun hk)) ha' ht

theorem find_of_separated (h : rm.default = some original) (hempty : rm.clients = .empty)
    (hsep : Separated calls a) {pre : List Call} (hpre : pre <+: calls)
    (hrun : run L rm pre = .ok rm') {a' : SocketAddress} (ha' : a' ∈ a :: calls.map Call.addr) :
    rm'.findAddr L a' = (latest L rm pre a').map some := by
  induction pre using List.reverseRecOn generalizing rm' with
  | nil =>
    cases hrun
    show rm.clients.find L a' = none
    rw [hempty, SearchMap.find_empty]
  | append_singleton pre c ih =>
    have hpre' : pre <+: calls := (List.prefix_append pre [c]).trans hpre
    have hc : c ∈ calls := hpre.subset (List.mem_append_right _ List.mem_cons_self)
    obtain ⟨rm'', hrun', -⟩ := exists_run (L := L) h pre
    cases c with
    | find b =>
      rw [run_append_find] at hrun
      rw [latest_find]
      exact ih hpre' hrun
    | defaultRenderer b =>
      have hb : b ∈ a :: calls.map Call.addr :=
        List.mem_cons_of_mem a (List.mem_map_of_mem (f := Call.addr) hc)
      have hba : Tied socketAddressComparator b a' → b = a' :=
        eq_of_tied_of_separated hsep (mem_stores.mpr hc) ha'
      rw [run_append_store h hrun'] at hrun
      cases hrun
      rw [latest_store h hrun']
      show (SearchMap.set L _ b _).find L a' = _
      rw [SearchMap.find_set socketAddressComparator_irrefl
        (alone_of_separated h hempty hsep hpre' hrun' hb)
        (alone_of_separated h hempty hsep hpre' hrun' ha') hba]
      by_cases heq : b = a'
      · rw [if_pos heq, if_pos heq.symm]
        rfl
      · rw [if_neg heq, if_neg (Ne.symm heq)]
        exact ih hpre' hrun'

theorem lookup_of_separated (h : rm.default = some original) (hempty : rm.clients = .empty)
    (hsep : Separated calls a) {pre : List Call} (hpre : pre <+: calls) {a' : SocketAddress}
    (ha' : a' ∈ a :: calls.map Call.addr) :
    lookup L rm pre a' = .ofFind ((latest L rm pre a').map some) := by
  obtain ⟨rm', hrun, -⟩ := exists_run (L := L) h pre
  rw [lookup_ok hrun, find_of_separated h hempty hsep hpre hrun ha']

theorem exactStore_of_separated (h : rm.default = some original) (hempty : rm.clients = .empty)
    (hsep : Separated calls a) : ExactStore L rm calls a := by
  intro pre hpre a' ha'
  have hlookup := lookup_of_separated (L := L) h hempty hsep hpre ha'
  have hlatest := latest_isSome_iff (L := L) h pre a'
  simp only [hlookup, Answer.ofFind_eq_found, Option.map_eq_some_iff]
  refine ⟨?_, ?_, fun c hc hne => ?_⟩
  · rw [← hlatest, Option.isSome_iff_exists]
    exact ⟨fun ⟨_, p, hp, _⟩ => ⟨p, hp⟩, fun ⟨p, hp⟩ => ⟨some p, p, hp, rfl⟩⟩
  · rintro renderer ⟨p, hp, rfl⟩
    exact hp
  · rw [lookup_of_separated h hempty hsep hc ha']
    cases c with
    | find b => rw [latest_find]
    | defaultRenderer b =>
      obtain ⟨rm', hrun, -⟩ := exists_run (L := L) h pre
      have hne' : b ≠ a' := hne
      rw [latest_store h hrun, if_neg hne']

/-! ## An exact store has separated addresses -/

/-- In an exact store every stored address is a key: the entry that received the
renderer is the one of that very address. -/
theorem mem_keys_of_exact (h : rm.default = some original) (hempty : rm.clients = .empty)
    (hexact : ExactStore L rm calls a) {pre : List Call} (hpre : pre <+: calls)
    (hrun : run L rm pre = .ok rm') {b : SocketAddress} (hb : b ∈ stores pre) :
    b ∈ rm'.clients.keys := by
  induction pre using List.reverseRecOn generalizing rm' with
  | nil => cases hb
  | append_singleton pre c ih =>
    have hpre' : pre <+: calls := (List.prefix_append pre [c]).trans hpre
    obtain ⟨rm'', hrun', -⟩ := exists_run (L := L) h pre
    rw [mem_stores, List.mem_append, List.mem_singleton] at hb
    have hold (hb : Call.defaultRenderer b ∈ pre) : b ∈ rm''.clients.keys :=
      ih hpre' hrun' (mem_stores.mpr hb)
    cases c with
    | find b' =>
      rw [run_append_find] at hrun
      cases hrun'.symm.trans hrun
      rcases hb with hb | hb
      · exact hold hb
      · cases hb
    | defaultRenderer b' =>
      have hnext := run_append_store h hrun' b'
      cases hnext.symm.trans hrun
      rcases hb with hb | hb
      · exact SearchMap.keys_subset_set b _ (hold hb)
      · cases hb
        let copy := rm''.fresh original.object
        obtain ⟨k, hk, hkeys, -, hfind⟩ := SearchMap.exists_lookup_set
          socketAddressComparator_irrefl L rm''.clients b (some copy)
        rcases hkeys with hkeys | rfl
        · have hk' : k ∈ a :: calls.map Call.addr := List.mem_cons_of_mem a (List.mem_map.mpr
            ⟨_, mem_stores.mp (stores_subset hpre' (mem_stores_of_mem_keys h hempty hrun' hkeys)),
              rfl⟩)
          have hfound := (lookup_eq_found hrun).mpr hfind
          have hlatest := (hexact _ hpre k hk').2.1 _ hfound
          have hbk : b = k := eq_of_latest_fresh h hrun' hlatest
          subst hbk
          exact hk
        · exact hk

theorem separated_of_exactStore (h : rm.default = some original) (hempty : rm.clients = .empty)
    (hexact : ExactStore L rm calls a) : Separated calls a := by
  obtain ⟨rm', hrun, -⟩ := exists_run (L := L) h calls
  have hall := List.prefix_refl calls
  intro b hb a' ha'
  by_cases ht : Tied socketAddressComparator b a'
  · left
    have hkey := mem_keys_of_exact h hempty hexact hall hrun hb
    obtain ⟨renderer, hfind⟩ : ∃ renderer, rm'.findAddr L a' = some renderer := by
      refine Option.ne_none_iff_exists'.mp fun hnone => ?_
      exact SearchMap.find_eq_none.mp hnone b hkey ht
    have hmem := (hexact calls hall a' ha').1.mp ⟨renderer, (lookup_eq_found hrun).mpr hfind⟩
    have hkey' := mem_keys_of_exact h hempty hexact hall hrun (mem_stores.mpr hmem)
    exact (rm'.clients.chain.eq_of_tied hkey hkey' ht).symm
  · right
    rcases not_tied.mp ht with h | h
    · exact Or.inr h
    · exact Or.inl h

end Installed

/-- A store without a default renderer ends the program, so the address is not
found. -/
theorem served_of_exactStore (hempty : rm.clients = .empty) {calls : List Call}
    {a : SocketAddress} (hexact : ExactStore L rm calls a) : Served rm calls := by
  cases h : rm.default with
  | some original => exact Or.inl (h ▸ rfl)
  | none =>
    refine Or.inr (List.eq_nil_iff_forall_not_mem.mpr fun b hb => ?_)
    have hmem : b ∈ a :: calls.map Call.addr :=
      List.mem_cons_of_mem a (List.mem_map_of_mem (f := Call.addr) (mem_stores.mp hb))
    obtain ⟨renderer, hfound⟩ :=
      (hexact calls (List.prefix_refl calls) b hmem).1.mpr (mem_stores.mp hb)
    exact lookup_null h hempty calls b renderer hfound

/-- The store is a finite map exactly when there is a default renderer for the
stores, if there are any, and their addresses are apart from all other addresses
looked at. -/
theorem exactStore_iff (L : Locator socketAddressComparator) (rm : RendererManager)
    (hempty : rm.clients = .empty) (calls : List Call) (a : SocketAddress) :
    ExactStore L rm calls a ↔ Served rm calls ∧ Separated calls a := by
  cases h : rm.default with
  | some original =>
    exact ⟨fun hexact => ⟨Or.inl (h ▸ rfl), separated_of_exactStore h hempty hexact⟩,
      fun hcase => exactStore_of_separated h hempty hcase.2⟩
  | none =>
    have hnil (hserved : Served rm calls) : stores calls = [] :=
      hserved.resolve_left (by rw [h]; exact Bool.false_ne_true)
    constructor
    · intro hexact
      have hserved := served_of_exactStore hempty hexact
      refine ⟨hserved, fun b hb => ?_⟩
      rw [hnil hserved] at hb
      cases hb
    · exact fun hcase => exactStore_of_stores_eq_nil hempty (hnil hcase.1)

/-! ## Two clients on one host -/

def searchTree : Locator socketAddressComparator :=
  Locator.tree socketAddressComparator socketAddressComparator_trans

/-- Two clients whose addresses and ports are in the same order are kept apart. -/
theorem exactStore_ordered :
    ExactStore searchTree RendererManager.installed
      [.defaultRenderer ⟨⟨10, 0, 0, 1⟩, 80⟩, .find ⟨⟨10, 0, 0, 2⟩, 81⟩] ⟨⟨10, 0, 0, 1⟩, 80⟩ :=
  (exactStore_iff searchTree .installed rfl _ _).mpr (by decide)

/-- A client that differs in the port only is handed the other one's renderer. -/
theorem not_exactStore_same_host :
    ¬ ExactStore searchTree .installed [.defaultRenderer ⟨⟨10, 0, 0, 1⟩, 80⟩]
      ⟨⟨10, 0, 0, 1⟩, 81⟩ := by
  intro h
  have hstored := (h _ (List.prefix_refl _) ⟨⟨10, 0, 0, 1⟩, 81⟩ List.mem_cons_self).1.mp
    ⟨some { location := 1, object := ⟨"Default".toList, none, none⟩ }, by decide⟩
  revert hstored
  decide

end Clients
end Renderers
end MediaServer
