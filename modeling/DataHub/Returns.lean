import DataHub.Transaction

/-!
The resource calls return. resTree_GetResource runs the walk of GetEntry, then turns a
namespace at the path into a placeholder, which needs /obs; when that fails it releases the
entry the walk created, the deepest of a chain of fresh entries, which holds only the
reference of its allocation. Once /obs is in the tree, GetResource and its callers
GetObservation, CreateInput and CreateOutput return without reaching an assertion.

The promotion asks for an observation placeholder when the base is the /obs namespace or the
path starts with "/obs/", and for an I/O placeholder otherwise: it reads the base and the
spelling of the path, not where the entry sits. Nothing else GetResource does is logged, so a
call logs that placeholder or nothing.
-/

namespace DataHub

section Resources

variable {lim : Limits} {h : Hub} {base : Nat} {path : List Char}

theorem resTreeFindEntry_some {e : Nat} (found : resTreeFindEntry lim h base path = .ok (some e)) :
    hubIsResourcePathMalformed lim path = false ∧ findEntry lim h base path = .ok (some e) := by
  unfold resTreeFindEntry at found
  split at found
  · cases found
  · exact ⟨Bool.eq_false_iff.mpr ‹_›, found⟩

theorem resTreeFindEntry_allocs (plan : List Bool) :
    resTreeFindEntry lim { h with allocs := plan } base path = resTreeFindEntry lim h base path := by
  simp only [resTreeFindEntry, findEntry, findEntryLoop_allocs]

theorem findOrCreateEntry_returns (wf : WellFormed lim h) (counted : ∀ r e, h.entries r = some e → 0 < e.refCount)
    (live : h.Live base) (wellFormed : hubIsResourcePathMalformed lim path = false)
    (clear : zombieFree h base (pathSegments path) = true) :
    ∃ res h', (findOrCreateEntry lim base path).run h = .ok (res, h') ∧
      (∀ e, res = (some e, false) → h' = h ∧ findEntry lim h base path = .ok (some e)) ∧
      (∀ e, res = (some e, true) → ∃ q qe, h.entries q = some qe ∧ FreshChain lim h q e h') ∧
      (res.1 = none → h'.entries = h.entries) := by
  have valid : ∀ name ∈ pathSegments path, ValidName lim name := fun _ => segment_valid wellFormed
  obtain ⟨e?, found⟩ := findEntryLoop_valid h (pathSegments path) base valid
  cases e? with
  | some e =>
    refine ⟨(some e, false), h, by simp [findOrCreateEntry, findEntry, found]; rfl, fun _ same => ?_,
      fun _ same => (by cases same), fun missing => absurd missing (Option.some_ne_none e)⟩
    cases same
    exact ⟨rfl, found⟩
  | none =>
    obtain ⟨res, h', creating, restored, chained⟩ :=
      createEntryLoop_all_or_nothing wf counted (pathSegments path) base live valid clear found
    refine ⟨(res, res.isSome), h', by simp [findOrCreateEntry, findEntry, found, createEntry, creating], ?_, ?_,
      restored⟩
    · intro e same
      cases res <;> cases same
    · intro e same
      cases res <;> cases same
      exact chained e rfl

theorem resTreeGetObsNamespace_of_found {o : Nat} (obs : resTreeFindEntry lim h rootPtr obsName = .ok (some o)) :
    (resTreeGetObsNamespace lim).run h = .ok (o, h) := by
  obtain ⟨wellFormed, found⟩ := resTreeFindEntry_some obs
  simp [resTreeGetObsNamespace, resTreeGetEntry_of_found wellFormed found]

theorem createPlaceholderForNamespace_returns {o e : Nat} (obs : resTreeFindEntry lim h rootPtr obsName = .ok (some o))
    (ns : typeOf h e = .«namespace») :
    ∃ ret h', (createPlaceholderForNamespace lim base path e).run h = .ok (ret, h') ∧
      (ret = .ok ∧ typeOf h' e = .placeholder ∨ ret = .noMemory ∧ h'.entries = h.entries) := by
  obtain ⟨x, read, -⟩ := entry_of_typeOf ns (by decide)
  unfold createPlaceholderForNamespace
  simp only [StateT.run_bind, run_get, except_bind_ok, ns, beq_self_eq_true, run_check, if_true,
    resTreeGetObsNamespace_of_found obs, resCreatePlaceholder_run]
  split_ifs with alloc
  · simp only [except_bind_ok, StateT.run_bind, run_updateEntry, run_pure]
    exact ⟨_, _, rfl, .inl ⟨rfl, typeOf_updateEntry_self read⟩⟩
  · exact ⟨_, _, rfl, .inr ⟨rfl, rfl⟩⟩

theorem promoteNamespace_returns {o : Nat} (obs : resTreeFindEntry lim h rootPtr obsName = .ok (some o))
    (entry? : Option Nat) :
    ∃ ret h', (promoteNamespace lim base path entry?).run h = .ok (ret, h') ∧ (ret ≠ .ok → h'.entries = h.entries) ∧
      ∀ e, entry? = some e → ret = .ok → typeOf h' e = .placeholder ∨ (typeOf h e ≠ .«namespace» ∧ h' = h) := by
  cases entry? with
  | none => exact ⟨.noMemory, h, rfl, fun _ => rfl, nofun⟩
  | some e =>
    by_cases ns : typeOf h e = .«namespace»
    · obtain ⟨ret, h', placing, outcome⟩ := @createPlaceholderForNamespace_returns lim h base path o e obs ns
      have run : (promoteNamespace lim base path (some e)).run h = .ok (if ret == .ok then .ok else .noMemory, h') := by
        simp only [promoteNamespace, run_get_bind]
        rw [if_pos (by simpa using ns), StateT.run_bind, placing, except_bind_ok]
        rfl
      rcases outcome with ⟨rfl, placeholder⟩ | ⟨rfl, kept⟩
      · exact ⟨_, _, run, fun no => absurd rfl no, fun _ same _ => by cases same; exact .inl placeholder⟩
      · exact ⟨_, _, run, fun _ => kept, fun _ _ failed => by cases failed⟩
    · exact ⟨.ok, h, by simp [promoteNamespace, ns]; rfl, fun no => absurd rfl no,
        fun _ same _ => by cases same; exact .inr ⟨ns, rfl⟩⟩

theorem resTreeGetResource_of_promotion {e? : Option Nat} {created : Bool} {h1 h2 : Hub}
    (wellFormed : hubIsResourcePathMalformed lim path = false)
    (walked : (findOrCreateEntry lim base path).run h = .ok ((e?, created), h1))
    (promoted : (promoteNamespace lim base path e?).run h1 = .ok (.ok, h2)) :
    (resTreeGetResource lim base path).run h = .ok ((.ok, e?), h2) := by
  unfold resTreeGetResource
  rw [if_neg (by simp [wellFormed]), StateT.run_bind, walked, except_bind_ok]
  dsimp only
  rw [StateT.run_bind, promoted, except_bind_ok]
  rfl

/-- resTree_GetResource with /obs in the tree and no zombie on the walk returns, and an entry it
hands out is a placeholder, or the entry FindEntry found before the call, no namespace, with its
type unchanged. -/
theorem resTreeGetResource_returns {o : Nat} (wf : WellFormed lim h)
    (counted : ∀ r e, h.entries r = some e → 0 < e.refCount) (live : h.Live base)
    (clear : zombieFree h base (pathSegments path) = true) (obs : resTreeFindEntry lim h rootPtr obsName = .ok (some o)) :
    ∃ res h', (resTreeGetResource lim base path).run h = .ok (res, h') ∧
      ∀ e, res = (.ok, some e) → typeOf h' e = .placeholder ∨
        (resTreeFindEntry lim h base path = .ok (some e) ∧ typeOf h e ≠ .«namespace» ∧ typeOf h' e = typeOf h e) := by
  by_cases malformed : hubIsResourcePathMalformed lim path = true
  · exact ⟨_, _, by simp [resTreeGetResource, malformed]; rfl, fun _ same => by cases same⟩
  have wellFormed : hubIsResourcePathMalformed lim path = false := by simpa using malformed
  obtain ⟨⟨e?, created⟩, h1, walked, found, chained, -⟩ := findOrCreateEntry_returns wf counted live wellFormed clear
  cases e? with
  | none =>
    have released : (releaseCreated none created).run h1 = .ok ((), h1) := by cases created <;> rfl
    exact ⟨_, _, resTreeGetResource_of_failed_promotion wellFormed walked rfl (by decide) released,
      fun _ same => by cases same⟩
  | some e =>
    have wf1 := findOrCreateEntry_wf wf live walked
    obtain ⟨grows, -⟩ := findOrCreateEntry_found wf live walked
    obtain ⟨obsOk, obsFound⟩ := resTreeFindEntry_some obs
    have obs1 : resTreeFindEntry lim h1 rootPtr obsName = .ok (some o) := by
      rw [resTreeFindEntry_of_wellFormed obsOk]
      exact grows.findEntryLoop wf1 _ _ obsFound
    obtain ⟨ret, h2, promoted, kept, typed⟩ := @promoteNamespace_returns lim h1 base path o obs1 (some e)
    by_cases ok : ret = .ok
    · subst ok
      refine ⟨(.ok, some e), h2, resTreeGetResource_of_promotion wellFormed walked promoted, fun e' same => ?_⟩
      cases same
      rcases typed e rfl rfl with placeholder | ⟨notNs, rfl⟩
      · exact .inl placeholder
      · cases created with
        | false =>
          obtain ⟨rfl, foundE⟩ := found e rfl
          exact .inr ⟨(resTreeFindEntry_of_wellFormed wellFormed).trans foundE, notNs, rfl⟩
        | true =>
          obtain ⟨q, qe, readQ, chain⟩ := chained e rfl
          obtain ⟨⟨p, name, leaf⟩, -, -⟩ := chain.leaf wf readQ
          exact absurd (by simp [typeOf, leaf, freshEntry]) notNs
    · obtain ⟨h3, released⟩ : ∃ h3, (releaseCreated (some e) created).run h2 = .ok ((), h3) := by
        cases created with
        | false => exact ⟨h2, rfl⟩
        | true =>
          obtain ⟨q, qe, readQ, chain⟩ := chained e rfl
          exact chain.release_last wf readQ (counted q qe readQ) (kept ok)
      exact ⟨_, _, resTreeGetResource_of_failed_promotion wellFormed walked promoted ok released,
        fun _ same => by cases same⟩

theorem resTreeGetResource_returns_of_reachable {o : Nat} (reach : Reachable lim h) (live : h.Live base)
    (plan : List Bool) (clear : zombieFree h base (pathSegments path) = true)
    (obs : resTreeFindEntry lim h rootPtr obsName = .ok (some o)) :
    ∃ res h', (resTreeGetResource lim base path).run { h with allocs := plan } = .ok (res, h') ∧
      ∀ e, res = (.ok, some e) → typeOf h' e = .placeholder ∨
        (resTreeFindEntry lim h base path = .ok (some e) ∧ typeOf h e ≠ .«namespace» ∧ typeOf h' e = typeOf h e) := by
  have wf0 : WellFormed lim { h with allocs := plan } := (reachable_wf reach).congr rfl rfl
  have live0 : ({ h with allocs := plan } : Hub).Live base := live
  have clear0 : zombieFree { h with allocs := plan } base (pathSegments path) = true := by
    rw [zombieFree_allocs]; exact clear
  have obs0 : resTreeFindEntry lim { h with allocs := plan } rootPtr obsName = .ok (some o) := by
    rw [resTreeFindEntry_allocs]; exact obs
  obtain ⟨res, h', got, typed⟩ :=
    resTreeGetResource_returns wf0 (fun r e read => reachable_counted reach r e read) live0 clear0 obs0
  refine ⟨res, h', got, fun e same => (typed e same).imp_right fun ⟨found, notNs, kept⟩ => ⟨?_, notNs, kept⟩⟩
  rwa [resTreeFindEntry_allocs] at found

theorem callResourceTreeChangeHandlers_returns (room : 0 < lim.resourcePathBytes) (e : Nat) (type : EntryType)
    (op : ResourceOperation) (h : Hub) : ∃ h', (callResourceTreeChangeHandlers lim e type op).run h = .ok ((), h') := by
  obtain ⟨text, rendered⟩ := getPathFuel_returns h rootPtr room (e + 1) e
  rw [callResourceTreeChangeHandlers_run, resTreeGetPath, rendered]
  exact ⟨_, rfl⟩

section Callers

variable {res : LeResult × Option Nat} {h1 : Hub}

theorem resTreeCreateIo_returns (type : EntryType) (room : 0 < lim.resourcePathBytes)
    (got : (resTreeGetResource lim base path).run h = .ok (res, h1))
    (placed : ∀ e, res = (.ok, some e) → typeOf h1 e = .placeholder) :
    ∃ ret h', (resTreeCreateIo type lim base path).run h = .ok (ret, h') := by
  obtain ⟨ret, e?⟩ := res
  unfold resTreeCreateIo
  rw [StateT.run_bind, got, except_bind_ok]
  dsimp only
  split
  · rename_i e
    rw [run_get_bind, placed e rfl]
    obtain ⟨h', notified⟩ := callResourceTreeChangeHandlers_returns room e type .added
      (h1.updateEntry e fun x => { x with type := type })
    simp only [beq_self_eq_true, run_check, StateT.run_bind, run_updateEntry, except_bind_ok, if_true, notified,
      run_pure]
    exact ⟨_, _, rfl⟩
  · exact ⟨_, _, rfl⟩

theorem resTreeGetObservation_returns (room : 0 < lim.resourcePathBytes)
    (got : (resTreeGetResource lim base path).run h = .ok (res, h1)) :
    ∃ ret h', (resTreeGetObservation lim base path).run h = .ok (ret, h') := by
  obtain ⟨ret, e?⟩ := res
  unfold resTreeGetObservation
  rw [StateT.run_bind, got, except_bind_ok]
  dsimp only
  split
  · rename_i e
    rw [run_get_bind]
    split
    · obtain ⟨h', notified⟩ := callResourceTreeChangeHandlers_returns room e .observation .added
        (h1.updateEntry e fun x => { x with type := .observation })
      simp only [StateT.run_bind, run_updateEntry, except_bind_ok, notified, run_pure]
      exact ⟨_, _, rfl⟩
    · split <;> exact ⟨_, _, rfl⟩
  · exact ⟨_, _, rfl⟩

end Callers

/-- resTree_GetResource, resTree_GetObservation and, on a path that holds at most a namespace or
a placeholder, resTree_CreateInput and resTree_CreateOutput: from a reachable tree that has
/obs, on a walk with no zombie and for every pattern of allocation failures, they return
without reaching an assertion. A path buffer with room for the NUL is all the notification
needs. -/
theorem resource_calls_return {o : Nat} (reach : Reachable lim h) (live : h.Live base) (plan : List Bool)
    (clear : zombieFree h base (pathSegments path) = true)
    (obs : resTreeFindEntry lim h rootPtr obsName = .ok (some o)) (room : 0 < lim.resourcePathBytes) :
    (∃ res h', (resTreeGetResource lim base path).run { h with allocs := plan } = .ok (res, h')) ∧
    (∃ res h', (resTreeGetObservation lim base path).run { h with allocs := plan } = .ok (res, h')) ∧
    ((∀ e, resTreeFindEntry lim h base path = .ok (some e) → typeOf h e = .«namespace» ∨ typeOf h e = .placeholder) →
      (∃ res h', (resTreeCreateInput lim base path).run { h with allocs := plan } = .ok (res, h')) ∧
      ∃ res h', (resTreeCreateOutput lim base path).run { h with allocs := plan } = .ok (res, h')) := by
  obtain ⟨res, h', got, typed⟩ := resTreeGetResource_returns_of_reachable reach live plan clear obs
  refine ⟨⟨_, _, got⟩, resTreeGetObservation_returns room got, fun pre => ?_⟩
  have placed : ∀ e, res = (.ok, some e) → typeOf h' e = .placeholder := fun e same => by
    rcases typed e same with placeholder | ⟨found, notNs, kept⟩
    · exact placeholder
    · rw [kept]
      exact (pre e found).resolve_left notNs
  exact ⟨resTreeCreateIo_returns .input room got placed, resTreeCreateIo_returns .output room got placed⟩

def hubWithObs : Hub := afterCall smallLimits (.getEntry rootPtr obsName) [] initialHub

theorem resource_calls_return_next_to_obs : Reachable smallLimits hubWithObs ∧ hubWithObs.Live rootPtr ∧
    zombieFree hubWithObs rootPtr (pathSegments "a".toList) = true ∧
    resTreeFindEntry smallLimits hubWithObs rootPtr obsName = .ok (some 1) ∧ 0 < smallLimits.resourcePathBytes ∧
    (∃ res h', (resTreeGetResource smallLimits rootPtr "a".toList).run { hubWithObs with allocs := [true, false] } =
      .ok (res, h')) ∧
    (∃ res h', (resTreeGetObservation smallLimits rootPtr "a".toList).run { hubWithObs with allocs := [true, false] } =
      .ok (res, h')) ∧
    ((∀ e, resTreeFindEntry smallLimits hubWithObs rootPtr "a".toList = .ok (some e) →
        typeOf hubWithObs e = .«namespace» ∨ typeOf hubWithObs e = .placeholder) →
      (∃ res h', (resTreeCreateInput smallLimits rootPtr "a".toList).run { hubWithObs with allocs := [true, false] } =
        .ok (res, h')) ∧
      ∃ res h', (resTreeCreateOutput smallLimits rootPtr "a".toList).run { hubWithObs with allocs := [true, false] } =
        .ok (res, h')) :=
  have reach : Reachable smallLimits hubWithObs := afterCall_reachable .init rfl
  ⟨reach, by decide, by decide, rfl, by decide,
    resource_calls_return reach (by decide) [true, false] (by decide) rfl (by decide)⟩

end Resources

section Flavour

variable {lim : Limits} {h h' : Hub} {base : Nat} {path : List Char}

/-- `h'` is `h` with entry `e` made a placeholder and the placeholder logged: an observation
one exactly when `base` is the /obs namespace of `h'` or `path` starts with "/obs/". -/
def PlacedFor (lim : Limits) (base : Nat) (path : List Char) (h h' : Hub) (e : Nat) : Prop :=
  typeOf h' e = .placeholder ∧ ∃ obs, resTreeFindEntry lim h' rootPtr obsName = .ok (some obs) ∧
    h'.log = h.log ++ [.placeholderCreated (base == obs || path.take 5 == obsPrefix) e]

theorem PlacedFor.of_log {h1 : Hub} {e : Nat} (placed : PlacedFor lim base path h1 h' e) (log : h1.log = h.log) :
    PlacedFor lim base path h h' e := by
  rw [PlacedFor, ← log]
  exact placed

end Flavour

end DataHub
