import DataHub.Invariance

/-!
The calls that attach, convert and detach resources, and the snapshotter's actions, keep the
tree well formed; with resTree_Init, every reachable tree is well formed. Each call is cut
at its binds, and every piece is one of the changes of the invariance module or leaves the
entries alone.
-/

namespace DataHub

section Equations

variable {α : Type}

theorem run_discard_eq_ok {x : HubM α} {h h' : Hub} {u : Unit} (run : (discard x).run h = .ok (u, h')) :
    ∃ a, x.run h = .ok (a, h') := by
  change (x.run h >>= fun p => pure ((), p.2)) = _ at run
  rcases first : x.run h with _ | ⟨a, s⟩ <;> rw [first] at run <;> cases run
  exact ⟨a, rfl⟩

@[simp] theorem typeOf_of_read {h : Hub} {r : Nat} {e : Entry} (read : h.entries r = some e) :
    typeOf h r = e.type := by
  simp [typeOf, read]

theorem callResourceTreeChangeHandlers_run (lim : Limits) (entry : Nat) (type : EntryType)
    (op : ResourceOperation) (h : Hub) :
    (callResourceTreeChangeHandlers lim entry type op).run h =
      (resTreeGetPath h lim.resourcePathBytes rootPtr entry).map
        fun rendered => ((), { h with log := h.log ++ [.treeChange rendered.text type op] }) := by
  simp only [callResourceTreeChangeHandlers, StateT.run_bind, run_get, except_bind_ok, run_liftM]
  cases resTreeGetPath h lim.resourcePathBytes rootPtr entry <;> rfl

theorem resCreatePlaceholder_run (observation : Bool) (entry : Nat) (h : Hub) :
    (resCreatePlaceholder observation entry).run h =
      if h.allocs.headD true then
        .ok (some h.nextRes, { h with allocs := h.allocs.tail, nextRes := h.nextRes + 1,
                                      log := h.log ++ [.placeholderCreated observation entry] })
      else .ok (none, { h with allocs := h.allocs.tail }) := by
  simp only [resCreatePlaceholder, StateT.run_bind, run_hubMemAlloc, except_bind_ok]
  split <;> rfl

theorem callResourceTreeChangeHandlers_frame {lim : Limits} {entry : Nat} {type : EntryType}
    {op : ResourceOperation} {h h' : Hub}
    (run : (callResourceTreeChangeHandlers lim entry type op).run h = .ok ((), h')) :
    ∃ rendered, resTreeGetPath h lim.resourcePathBytes rootPtr entry = .ok rendered ∧
      h' = { h with log := h.log ++ [.treeChange rendered.text type op] } := by
  rw [callResourceTreeChangeHandlers_run] at run
  cases rendering : resTreeGetPath h lim.resourcePathBytes rootPtr entry <;> rw [rendering] at run
  · cases run
  · cases run
    exact ⟨_, rfl, rfl⟩

end Equations

section Content

theorem EntryOk.retype {e : Entry} (ok : EntryOk e) (resource : e.type ≠ .«namespace»)
    {t : EntryType} (resourceType : t ≠ .«namespace») : EntryOk { e with type := t } where
  union := by
    simp only [resourceType, false_iff]
    exact fun flags => resource (ok.union.mpr flags)
  deleted_not_new := fun ns => absurd ns resourceType

theorem placeholder_ok (e : Entry) (res : Nat) :
    EntryOk { e with u := .resourcePtr res, type := .placeholder } where
  union := by simp
  deleted_not_new := by simp

theorem detached_ok (e : Entry) : EntryOk { e with u := .flags {}, type := .«namespace» } where
  union := by simp
  deleted_not_new := by simp [Entry.flags]

theorem EntryOk.setFlags {e : Entry} (ns : e.type = .«namespace») {bits : Flags}
    (fresh : bits.deleted = true → bits.new = false) : EntryOk { e with u := .flags bits } where
  union := by simp [ns]
  deleted_not_new := fun _ => by simpa [Entry.flags] using fresh

end Content

section Resource

variable {lim : Limits} {h h' : Hub}

theorem WellFormed.root_live (wf : WellFormed lim h) : h.Live rootPtr := by
  obtain ⟨e, read, -⟩ := wf.root
  simp [Hub.Live, read]

theorem callResourceTreeChangeHandlers_wf {entry : Nat} {type : EntryType} {op : ResourceOperation}
    (wf : WellFormed lim h) (run : (callResourceTreeChangeHandlers lim entry type op).run h = .ok ((), h')) :
    WellFormed lim h' := by
  obtain ⟨rendered, -, rfl⟩ := callResourceTreeChangeHandlers_frame run
  exact wf.congr rfl rfl

theorem resTreeGetObsNamespace_wf {obs : Nat} (wf : WellFormed lim h)
    (run : (resTreeGetObsNamespace lim).run h = .ok (obs, h')) : WellFormed lim h' := by
  obtain ⟨got, h1, getting, rest⟩ := run_bind_eq_ok run
  have wf1 := resTreeGetEntry_wf wf wf.root_live getting
  obtain ⟨-, rest⟩ := run_check_bind_eq_ok rest
  split at rest <;> cases rest
  exact wf1

theorem createPlaceholderForNamespace_wf {base entry : Nat} {path : List Char} {ret : LeResult}
    (wf : WellFormed lim h) (run : (createPlaceholderForNamespace lim base path entry).run h = .ok (ret, h')) :
    WellFormed lim h' := by
  unfold createPlaceholderForNamespace at run
  rw [run_get_bind] at run
  obtain ⟨-, run⟩ := run_check_bind_eq_ok run
  obtain ⟨obs, h1, gotObs, run⟩ := run_bind_eq_ok run
  have wf1 := resTreeGetObsNamespace_wf wf gotObs
  obtain ⟨res?, h2, placing, rest⟩ := run_bind_eq_ok run
  rw [resCreatePlaceholder_run] at placing
  have wf2 : WellFormed lim h2 := by split at placing <;> cases placing <;> exact wf1.congr rfl rfl
  split at rest
  · simp only [StateT.run_bind, run_updateEntry, except_bind_ok, run_pure] at rest
    cases rest
    exact wf2.updateEntry (fun _ => ⟨rfl, rfl, rfl⟩) fun e _ => placeholder_ok e _
  · cases rest
    exact wf2

theorem findOrCreateEntry_inv {base : Nat} {path : List Char} {e? : Option Nat} {created : Bool}
    (run : (findOrCreateEntry lim base path).run h = .ok ((e?, created), h')) :
    (∃ e, findEntry lim h base path = .ok (some e) ∧ e? = some e ∧ created = false ∧ h' = h) ∨
    (findEntry lim h base path = .ok none ∧ (createEntry lim base path).run h = .ok (e?, h') ∧
      created = e?.isSome) := by
  unfold findOrCreateEntry at run
  rw [run_get_bind] at run
  obtain ⟨found, h1, lookup, rest⟩ := run_bind_eq_ok run
  obtain ⟨lookup, rfl⟩ := run_liftM_eq_ok lookup
  split at rest
  · cases rest
    exact .inl ⟨_, lookup, rfl, rfl, rfl⟩
  · obtain ⟨e?', h2, creating, rest⟩ := run_bind_eq_ok rest
    cases rest
    exact .inr ⟨lookup, creating, rfl⟩

theorem findOrCreateEntry_wf {base : Nat} {path : List Char} {res : Option Nat × Bool}
    (wf : WellFormed lim h) (live : h.Live base) (run : (findOrCreateEntry lim base path).run h = .ok (res, h')) :
    WellFormed lim h' := by
  obtain ⟨e?, created⟩ := res
  rcases findOrCreateEntry_inv run with ⟨-, -, -, -, rfl⟩ | ⟨-, creating, -⟩
  · exact wf
  · exact createEntry_wf wf live creating

theorem promoteNamespace_wf {base : Nat} {path : List Char} {entry? : Option Nat} {ret : LeResult}
    (wf : WellFormed lim h) (run : (promoteNamespace lim base path entry?).run h = .ok (ret, h')) :
    WellFormed lim h' := by
  cases entry? with
  | none => cases run; exact wf
  | some e =>
    simp only [promoteNamespace, run_get_bind] at run
    split at run
    · obtain ⟨placed, h1, placing, finished⟩ := run_bind_eq_ok run
      cases finished
      exact createPlaceholderForNamespace_wf wf placing
    · cases run; exact wf

theorem releaseCreated_wf {entry? : Option Nat} {created : Bool} (wf : WellFormed lim h)
    (run : (releaseCreated entry? created).run h = .ok ((), h')) : WellFormed lim h' := by
  unfold releaseCreated at run
  split at run
  · exact leMemRelease_wf wf run
  · cases run; exact wf

theorem resTreeGetResource_wf {base : Nat} {path : List Char} {res : LeResult × Option Nat}
    (wf : WellFormed lim h) (live : h.Live base) (run : (resTreeGetResource lim base path).run h = .ok (res, h')) :
    WellFormed lim h' := by
  unfold resTreeGetResource at run
  split at run
  · cases run; exact wf
  · obtain ⟨⟨entry?, created⟩, h1, walked, run⟩ := run_bind_eq_ok run
    obtain ⟨ret, h2, promoted, rest⟩ := run_bind_eq_ok run
    have wf2 := promoteNamespace_wf (findOrCreateEntry_wf wf live walked) promoted
    split at rest
    · cases rest; exact wf2
    · obtain ⟨⟨⟩, h3, released, finished⟩ := run_bind_eq_ok rest
      cases finished
      exact releaseCreated_wf wf2 released

end Resource

section Convert

variable {lim : Limits} {h h' : Hub}

theorem WellFormed.retype (wf : WellFormed lim h) {entry : Nat} (resource : typeOf h entry ≠ .«namespace»)
    {t : EntryType} (resourceType : t ≠ .«namespace») :
    WellFormed lim (h.updateEntry entry fun x => { x with type := t }) :=
  wf.updateEntry (fun _ => ⟨rfl, rfl, rfl⟩) fun x read =>
    (wf.content _ x read).retype (by rwa [typeOf_of_read read] at resource) resourceType

theorem resTreeCreateIo_wf {type : EntryType} (resourceType : type ≠ .«namespace») {base : Nat}
    {path : List Char} {ret : LeResult} (wf : WellFormed lim h) (live : h.Live base)
    (run : (resTreeCreateIo type lim base path).run h = .ok (ret, h')) : WellFormed lim h' := by
  unfold resTreeCreateIo at run
  obtain ⟨⟨ret, entry?⟩, h1, got, run⟩ := run_bind_eq_ok run
  have wf1 := resTreeGetResource_wf wf live got
  dsimp only at run
  split at run
  · rw [run_get_bind] at run
    obtain ⟨placeholder, run⟩ := run_check_bind_eq_ok run
    rw [run_updateEntry_bind] at run
    obtain ⟨⟨⟩, h2, notified, finished⟩ := run_bind_eq_ok run
    cases finished
    refine callResourceTreeChangeHandlers_wf (wf1.retype ?_ resourceType) notified
    simp only [beq_iff_eq] at placeholder
    simp [placeholder]
  · cases run; exact wf1

theorem resTreeGetObservation_wf {base : Nat} {path : List Char} {res : LeResult × Written Nat}
    (wf : WellFormed lim h) (live : h.Live base)
    (run : (resTreeGetObservation lim base path).run h = .ok (res, h')) : WellFormed lim h' := by
  unfold resTreeGetObservation at run
  obtain ⟨⟨ret, entry?⟩, h1, got, run⟩ := run_bind_eq_ok run
  have wf1 := resTreeGetResource_wf wf live got
  dsimp only at run
  split at run
  · rw [run_get_bind] at run
    split at run
    · rename_i placeholder
      rw [run_updateEntry_bind] at run
      obtain ⟨⟨⟩, h2, notified, finished⟩ := run_bind_eq_ok run
      cases finished
      refine callResourceTreeChangeHandlers_wf (wf1.retype ?_ (by decide)) notified
      simp only [beq_iff_eq] at placeholder
      simp [placeholder]
    · split at run <;> cases run <;> exact wf1
  · cases run; exact wf1

end Convert

section Delete

variable {lim : Limits} {h h' : Hub}

theorem snapshotRecordNodeDeletion_wf {keep : Bool} {entry : Nat} (wf : WellFormed lim h)
    (run : (snapshotRecordNodeDeletion keep entry).run h = .ok ((), h')) : WellFormed lim h' := by
  cases keep <;> simp [snapshotRecordNodeDeletion] at run <;> subst run
  · exact wf.congr rfl rfl
  · exact (wf.setRefCount entry (· + 1)).congr rfl rfl

theorem detachAndRelease_wf {keep : Bool} {entry : Nat} (wf : WellFormed lim h)
    (run : (detachAndRelease keep entry).run h = .ok ((), h')) : WellFormed lim h' := by
  simp only [detachAndRelease, run_updateEntry_bind] at run
  obtain ⟨⟨⟩, h1, recorded, released⟩ := run_bind_eq_ok run
  refine leMemRelease_wf (snapshotRecordNodeDeletion_wf ?_ recorded) released
  exact wf.updateEntry (fun _ => ⟨rfl, rfl, rfl⟩) fun x _ => detached_ok x

theorem resTreeDeleteIo_wf {hasAdminSettings keep : Bool} {entry : Nat} (wf : WellFormed lim h)
    (io : typeOf h entry = .input ∨ typeOf h entry = .output)
    (run : (resTreeDeleteIo hasAdminSettings keep lim entry).run h = .ok ((), h')) : WellFormed lim h' := by
  unfold resTreeDeleteIo at run
  rw [run_get_bind] at run
  obtain ⟨⟨⟩, h1, notified, rest⟩ := run_bind_eq_ok run
  have wf1 := callResourceTreeChangeHandlers_wf wf notified
  have resource : typeOf h entry ≠ .«namespace» := by rcases io with io | io <;> simp [io]
  obtain ⟨rendered, -, rfl⟩ := callResourceTreeChangeHandlers_frame notified
  split at rest
  · cases rest
    exact wf1.retype resource (by decide)
  · exact detachAndRelease_wf wf1 rest

theorem resTreeDeleteObservation_wf {keep : Bool} {entry : Nat} (wf : WellFormed lim h)
    (run : (resTreeDeleteObservation keep lim entry).run h = .ok ((), h')) : WellFormed lim h' := by
  obtain ⟨⟨⟩, h1, notified, rest⟩ := run_bind_eq_ok run
  exact detachAndRelease_wf (callResourceTreeChangeHandlers_wf wf notified) rest

theorem snapshotRelease_wf {entry : Nat} (wf : WellFormed lim h)
    (run : (snapshotRelease entry).run h = .ok ((), h')) : WellFormed lim h' := by
  obtain ⟨⟨⟩, h1, dropped, released⟩ := run_bind_eq_ok run
  cases dropped
  refine leMemRelease_wf ?_ released
  exact wf.congr rfl rfl

end Delete

section Snapshot

variable {lim : Limits} {h h' : Hub}

theorem onNamespace_wf {entry : Nat} {f : Flags → Flags} (wf : WellFormed lim h)
    (run : (onNamespace entry f).run h = .ok ((), h'))
    (fresh : ∀ bits : Flags, (bits.deleted = true → bits.new = false) →
      (f bits).deleted = true → (f bits).new = false) : WellFormed lim h' := by
  simp only [onNamespace, run_get_bind] at run
  split at run
  · rename_i ns
    cases run
    refine wf.updateEntry (fun _ => ⟨rfl, rfl, rfl⟩) fun e read => ?_
    have nsE : e.type = .«namespace» := by simpa [read] using ns
    exact EntryOk.setFlags nsE (fresh _ ((wf.content _ e read).deleted_not_new nsE))
  · cases run; exact wf

theorem resTreeSetDeleted_wf {entry : Nat} (wf : WellFormed lim h)
    (run : (resTreeSetDeleted entry).run h = .ok ((), h')) : WellFormed lim h' := by
  simp only [resTreeSetDeleted, run_get_bind] at run
  obtain ⟨ns, run⟩ := run_check_bind_eq_ok run
  obtain ⟨old, run⟩ := run_check_bind_eq_ok run
  cases run
  refine wf.updateEntry (fun _ => ⟨rfl, rfl, rfl⟩) fun e read => ?_
  have nsE : e.type = .«namespace» := by simpa [read] using ns
  exact EntryOk.setFlags nsE fun _ => by simpa [read] using old

end Snapshot

section Runs

variable {lim : Limits} {h h' : Hub}

theorem Op.run_wf {op : Op} (wf : WellFormed lim h) (allowed : op.Allowed h)
    (run : (op.run lim).run h = .ok ((), h')) : WellFormed lim h' := by
  cases op with
  | getEntry base path =>
    obtain ⟨_, run⟩ := run_discard_eq_ok run
    exact resTreeGetEntry_wf wf allowed run
  | getResource base path =>
    obtain ⟨_, run⟩ := run_discard_eq_ok run
    exact resTreeGetResource_wf wf allowed run
  | createInput base path =>
    obtain ⟨_, run⟩ := run_discard_eq_ok run
    exact resTreeCreateIo_wf (by decide) wf allowed run
  | createOutput base path =>
    obtain ⟨_, run⟩ := run_discard_eq_ok run
    exact resTreeCreateIo_wf (by decide) wf allowed run
  | getObservation base path =>
    obtain ⟨_, run⟩ := run_discard_eq_ok run
    exact resTreeGetObservation_wf wf allowed run
  | deleteIo entry hasAdminSettings keep => exact resTreeDeleteIo_wf wf allowed run
  | deleteObservation entry keep => exact resTreeDeleteObservation_wf wf run
  | setDeleted entry => exact resTreeSetDeleted_wf wf run
  | setRelevance entry relevant => exact onNamespace_wf wf run fun _ fresh => fresh
  | setClearNewnessFlag entry => exact onNamespace_wf wf run fun _ fresh => fresh
  | clearNewness entry => exact onNamespace_wf wf run fun _ _ _ => rfl
  | snapshotRelease entry => exact snapshotRelease_wf wf run

theorem initialHub_entries (r : Nat) :
    initialHub.entries r = if r = rootPtr then some (freshEntry none []) else none := by
  simp [initialHub, emptyHub, Function.update_apply]

theorem initialHub_wf : WellFormed lim initialHub := by
  have read : ∀ {r e}, initialHub.entries r = some e → r = rootPtr ∧ e = freshEntry none [] := by
    intro r e found
    rw [initialHub_entries] at found
    split_ifs at found with root
    exact ⟨root, (Option.some.inj found).symm⟩
  constructor
  · exact ⟨freshEntry none [], by simp [initialHub_entries], rfl⟩
  · intro r e found
    obtain ⟨rfl, -⟩ := read found
    simp [initialHub, rootPtr]
  · intro r e found notRoot
    exact absurd (read found).1 notRoot
  · intro r e c found member
    obtain ⟨-, rfl⟩ := read found
    simp [freshEntry] at member
  · intro r e found
    obtain ⟨-, rfl⟩ := read found
    simp [freshEntry]
  · intro r e found notRoot
    exact absurd (read found).1 notRoot
  · intro r e found
    obtain ⟨-, rfl⟩ := read found
    exact freshEntry_ok _ _

theorem reachable_wf (reach : Reachable lim h) : WellFormed lim h := by
  induction reach with
  | init => exact initialHub_wf
  | @step h h' op plan _ step wf =>
    have planned : WellFormed lim { h with allocs := plan } := wf.congr rfl rfl
    exact Op.run_wf planned step.1 step.2

theorem EntryOk.resource {e : Entry} (ok : EntryOk e) (resource : e.type ≠ .«namespace») :
    ∃ res, e.u = .resourcePtr res := by
  cases payload : e.u with
  | resourcePtr res => exact ⟨res, rfl⟩
  | flags bits => exact absurd (ok.union.mpr ⟨bits, payload⟩) resource

theorem EntryOk.deleted {e : Entry} (ok : EntryOk e) (deleted : e.flags.deleted = true) :
    e.type = .«namespace» ∧ e.flags.new = false := by
  cases payload : e.u with
  | resourcePtr res => simp [Entry.flags, payload] at deleted
  | flags bits =>
    have ns := ok.union.mpr ⟨bits, payload⟩
    exact ⟨ns, ok.deleted_not_new ns deleted⟩

/-- The shape of every reachable tree: the parent links, each child once in its parent's
list, the chain of parents up to the root, sibling names, entry names and the payloads. -/
theorem reachable_tree_wellFormed (reach : Reachable lim h) :
    (∃ e, h.entries rootPtr = some e ∧ e.parentPtr = none) ∧
    (∀ r e, h.entries r = some e → r ≠ rootPtr →
      ∃ p pe, e.parentPtr = some p ∧ h.entries p = some pe ∧ pe.childList.count r = 1) ∧
    (∀ r e, h.entries r = some e → ∃ chain, ParentChain h r chain ∧ chain.Nodup) ∧
    (∀ r e c, h.entries r = some e → c ∈ e.childList →
      ∃ ce, h.entries c = some ce ∧ ce.parentPtr = some r) ∧
    (∀ r e, h.entries r = some e → (e.childList.map (nameOf h)).Nodup) ∧
    (∀ r e, h.entries r = some e → r ≠ rootPtr → ValidName lim e.name) ∧
    (∀ r e, h.entries r = some e →
      (e.type ≠ .«namespace» → ∃ res, e.u = .resourcePtr res) ∧
      (e.flags.deleted = true → e.type = .«namespace» ∧ e.flags.new = false)) := by
  have wf := reachable_wf reach
  refine ⟨wf.root, ?_, ?_, wf.children, wf.names, wf.name_valid, ?_⟩
  · intro r e read root
    obtain ⟨p, pe, up, -, readParent, member⟩ := wf.parent r e read root
    exact ⟨p, pe, up, readParent, List.count_eq_one_of_mem (wf.childList_nodup readParent) member⟩
  · intro r e read
    obtain ⟨chain, path, nodup, -⟩ := wf.parentChain_le r (by simp [Hub.Live, read])
    exact ⟨chain, path, nodup⟩
  · intro r e read
    exact ⟨(wf.content r e read).resource, (wf.content r e read).deleted⟩

end Runs

section Histories

def hubWithAB : Hub := afterCall smallLimits (.getEntry rootPtr "a/b".toList) [] initialHub

def hubPlacedAB : Hub := afterCall smallLimits (.getResource rootPtr "a/b".toList) [] initialHub

/-- Input "a/b", its placeholder made first by GetResource; below, "a" is promoted to an Input,
deleted without admin settings and promoted again. -/
def hubInputAB : Hub := afterCall smallLimits (.createInput rootPtr "a/b".toList) [] hubPlacedAB

def hubDeletedInputA : Hub :=
  afterCall smallLimits (.deleteIo 1 false false) [] <|
    afterCall smallLimits (.createInput rootPtr "a".toList) [] hubInputAB

def hubInputAgainA : Hub := afterCall smallLimits (.createInput rootPtr "a".toList) [] hubDeletedInputA

theorem hubInputAgainA_reachable : Reachable smallLimits hubInputAgainA :=
  afterCall_reachable (afterCall_reachable (afterCall_reachable
    (afterCall_reachable (afterCall_reachable .init rfl) rfl) rfl) rfl) rfl

/-- Input "a/b" once the snapshotter has cleared the newness of the namespace "a" and marked it
deleted: a zombie above a live Input. -/
def hubZombieAboveInput : Hub :=
  afterCall smallLimits (.setDeleted 1) [] <| afterCall smallLimits (.clearNewness 1) [] hubInputAB

theorem zombie_tree_wellFormed : Reachable smallLimits hubZombieAboveInput ∧
    (hubZombieAboveInput.entries 1).map (·.childList) = some [2] ∧ typeOf hubZombieAboveInput 2 = .input ∧
    resTreeIsDeleted hubZombieAboveInput 1 = true ∧
    (∃ e, hubZombieAboveInput.entries rootPtr = some e ∧ e.parentPtr = none) ∧
    (∀ r e, hubZombieAboveInput.entries r = some e → r ≠ rootPtr →
      ∃ p pe, e.parentPtr = some p ∧ hubZombieAboveInput.entries p = some pe ∧ pe.childList.count r = 1) ∧
    (∀ r e, hubZombieAboveInput.entries r = some e → ∃ chain, ParentChain hubZombieAboveInput r chain ∧ chain.Nodup) ∧
    (∀ r e c, hubZombieAboveInput.entries r = some e → c ∈ e.childList →
      ∃ ce, hubZombieAboveInput.entries c = some ce ∧ ce.parentPtr = some r) ∧
    (∀ r e, hubZombieAboveInput.entries r = some e → (e.childList.map (nameOf hubZombieAboveInput)).Nodup) ∧
    (∀ r e, hubZombieAboveInput.entries r = some e → r ≠ rootPtr → ValidName smallLimits e.name) ∧
    (∀ r e, hubZombieAboveInput.entries r = some e →
      (e.type ≠ .«namespace» → ∃ res, e.u = .resourcePtr res) ∧
      (e.flags.deleted = true → e.type = .«namespace» ∧ e.flags.new = false)) :=
  have reach : Reachable smallLimits hubZombieAboveInput :=
    afterCall_reachable (afterCall_reachable (afterCall_reachable (afterCall_reachable .init rfl) rfl) rfl) rfl
  ⟨reach, rfl, rfl, rfl, reachable_tree_wellFormed reach⟩

def hubDeletedA : Hub :=
  afterCall smallLimits (.deleteIo 1 false true) [] <|
    afterCall smallLimits (.createInput rootPtr "a".toList) [] initialHub

/-- Input "a" deleted by DeleteIO with the snapshotter keeping a reference, then marked deleted:
"a" is a zombie leaf, and the child list of the root is ["a", "obs"]. -/
def hubZombieA : Hub := afterCall smallLimits (.setDeleted 1) [] hubDeletedA

theorem hubZombieA_reachable : Reachable smallLimits hubZombieA :=
  afterCall_reachable (afterCall_reachable (afterCall_reachable .init rfl) rfl) rfl

end Histories

end DataHub
