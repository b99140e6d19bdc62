import DataHub.Reachable
import Mathlib.Logic.Relation

/-!
The life of an entry block. AddChild hands out the block at nextRef and nothing else ever
allocates one, so a block once freed stays free; no call writes the name or the parentPtr of
an entry it does not create; and le_mem_Release frees a block at its last reference rather
than leave it live with none, so every live entry holds at least one. `Evolves h h'` says so
of two hubs, and every call the callers may make relates the hub before to the hub after.
Over a run, an entry live at both ends keeps its name and its parent all along, so
resTree_GetPath gives it the same path at the end as at the start.
-/

namespace DataHub

/-- `e'` is the entry `e` later in its life: same name and parent, and still counted if it
was. -/
def Entry.Continues (e e' : Entry) : Prop :=
  e'.name = e.name ∧ e'.parentPtr = e.parentPtr ∧ (0 < e.refCount → 0 < e'.refCount)

theorem Entry.Continues.refl (e : Entry) : e.Continues e := ⟨rfl, rfl, id⟩

theorem Entry.Continues.trans {e e' e'' : Entry} (first : e.Continues e') (second : e'.Continues e'') :
    e.Continues e'' :=
  ⟨second.1.trans first.1, second.2.1.trans first.2.1, fun positive => second.2.2 (first.2.2 positive)⟩

/-- How a call may change the entry pool: the blocks below the old nextRef that are live after
it were live before it and continue their entries, and a block from nextRef on holds a fresh
entry with a reference. -/
structure Evolves (h h' : Hub) : Prop where
  next_le : h.nextRef ≤ h'.nextRef
  old : ∀ r e', h'.entries r = some e' → r < h.nextRef → ∃ e, h.entries r = some e ∧ e.Continues e'
  fresh : ∀ r e', h'.entries r = some e' → h.nextRef ≤ r → 0 < e'.refCount

section Basic

variable {lim : Limits} {h h' h'' : Hub}

theorem Evolves.trans (first : Evolves h h') (second : Evolves h' h'') : Evolves h h'' where
  next_le := first.next_le.trans second.next_le
  old r e'' read below := by
    obtain ⟨e', read', later⟩ := second.old r e'' read (by have := first.next_le; omega)
    obtain ⟨e, old, earlier⟩ := first.old r e' read' below
    exact ⟨e, old, earlier.trans later⟩
  fresh r e'' read past := by
    by_cases young : r < h'.nextRef
    · obtain ⟨e', read', later⟩ := second.old r e'' read young
      exact later.2.2 (first.fresh r e' read' past)
    · exact second.fresh r e'' read (by omega)

theorem Evolves.positive (evolves : Evolves h h') (positive : ∀ r e, h.entries r = some e → 0 < e.refCount) :
    ∀ r e', h'.entries r = some e' → 0 < e'.refCount := by
  intro r e' read
  by_cases old : r < h.nextRef
  · obtain ⟨e, read0, continues⟩ := evolves.old r e' read old
    exact continues.2.2 (positive r e read0)
  · exact evolves.fresh r e' read (by omega)

theorem Evolves.of_each (wf : WellFormed lim h) (next : h.nextRef ≤ h'.nextRef)
    (each : ∀ r e', h'.entries r = some e' →
      (∃ e, h.entries r = some e ∧ e.Continues e') ∨ (h.nextRef ≤ r ∧ 0 < e'.refCount)) :
    Evolves h h' where
  next_le := next
  old r e' read below := by
    rcases each r e' read with kept | ⟨past, -⟩
    · exact kept
    · omega
  fresh r e' read past := by
    rcases each r e' read with ⟨e, old, -⟩ | ⟨-, positive⟩
    · exact absurd (wf.below_next r e old) (by omega)
    · exact positive

theorem Evolves.of_entries (wf : WellFormed lim h) (same : h'.entries = h.entries) (next : h'.nextRef = h.nextRef) :
    Evolves h h' :=
  Evolves.of_each wf next.ge fun _ e' read => .inl ⟨e', same ▸ read, Entry.Continues.refl e'⟩

theorem Evolves.updateEntry (wf : WellFormed lim h) {r : Nat} {f : Entry → Entry}
    (keep : ∀ e, h.entries r = some e → e.Continues (f e)) : Evolves h (h.updateEntry r f) :=
  Evolves.of_each wf le_rfl fun s e' read => by
    simp only [Hub.updateEntry_entries] at read
    split_ifs at read with sr
    · subst sr
      obtain ⟨e, old, rfl⟩ := Option.map_eq_some'.mp read
      exact .inl ⟨e, old, keep e old⟩
    · exact .inl ⟨e', read, Entry.Continues.refl e'⟩

theorem Evolves.link (wf : WellFormed lim h) {p : Nat} {pe : Entry} (readParent : h.entries p = some pe)
    (name : List Char) : Evolves h (h.link p name) :=
  Evolves.of_each wf (by simp [Hub.link]) fun s e' read => by
    rcases link_read wf readParent read with ⟨rfl, rfl⟩ | ⟨rfl, rfl⟩ | ⟨-, old⟩
    · exact .inl ⟨pe, readParent, rfl, rfl, fun _ => Nat.succ_pos _⟩
    · exact .inr ⟨le_rfl, Nat.one_pos⟩
    · exact .inl ⟨e', old, Entry.Continues.refl e'⟩

theorem Evolves.unlink (wf : WellFormed lim h) (p r : Nat) : Evolves h (h.unlink p r) :=
  Evolves.of_each wf le_rfl fun s e' read => by
    simp only [Hub.unlink, Hub.setEntry_entries, Hub.updateEntry_entries] at read
    split_ifs at read with sr sp
    · subst sp
      obtain ⟨e, old, rfl⟩ := Option.map_eq_some'.mp read
      exact .inl ⟨e, old, rfl, rfl, id⟩
    · exact .inl ⟨e', read, Entry.Continues.refl e'⟩

end Basic

section Laws

variable {lim : Limits}

/-- What an update of one entry does in every call but resTree_SetDeleted: the entry keeps its
name and its parent, keeps a reference if it held one, and is not newly marked deleted. -/
def Entry.Benign (e e' : Entry) : Prop :=
  e.Continues e' ∧
    ((e'.type == .«namespace» && e'.flags.deleted) = true → (e.type == .«namespace» && e.flags.deleted) = true)

def Event.Quiet : Event → Prop
  | .treeChange _ _ _ => False
  | _ => True

/-- A relation between hubs that holds across each way a call changes the entry pool: the
allocation plan alone, AddChild's link, EntryDestructor's unlink, and an update of one entry.
The lemmas on the calls below are stated once for every such relation. -/
structure PoolLaws (lim : Limits) (R : Hub → Hub → Prop) : Prop where
  trans : ∀ {h h' h'' : Hub}, R h h' → R h' h'' → R h h''
  frame : ∀ {h h' : Hub}, WellFormed lim h → h'.entries = h.entries → h'.nextRef = h.nextRef →
    h'.snapshotRefs = h.snapshotRefs → h'.log = h.log → R h h'
  link : ∀ {h : Hub} {p : Nat} {pe : Entry} (name : List Char), WellFormed lim h → h.entries p = some pe →
    R h (h.link p name)
  unlink : ∀ {h : Hub} (p r : Nat), WellFormed lim h → R h (h.unlink p r)
  update : ∀ {h : Hub} {r : Nat} {f : Entry → Entry}, WellFormed lim h →
    (∀ e, h.entries r = some e → e.Benign (f e)) → R h (h.updateEntry r f)

/-- ... and a call out that the admin handlers do not see. -/
structure EditLaws (lim : Limits) (R : Hub → Hub → Prop) extends PoolLaws lim R : Prop where
  quiet : ∀ {h h' : Hub} {event : Event}, WellFormed lim h → h'.entries = h.entries → h'.nextRef = h.nextRef →
    h'.snapshotRefs = h.snapshotRefs → h'.log = h.log ++ [event] → event.Quiet → R h h'

/-- The laws, and the snapshotter's count of the references it keeps, which only
snapshot_RecordNodeDeletion and the snapshotter's own release change. -/
structure TallyLaws (lim : Limits) (R : Hub → Hub → Prop) extends EditLaws lim R : Prop where
  tally : ∀ {h h' : Hub}, WellFormed lim h → h'.entries = h.entries → h'.nextRef = h.nextRef → h'.log = h.log →
    R h h'

/-- ... and the notifications to the admin handlers of the resource tree. -/
structure BoundaryLaws (lim : Limits) (R : Hub → Hub → Prop) extends TallyLaws lim R : Prop where
  notify : ∀ {h h' : Hub}, WellFormed lim h → h'.entries = h.entries → h'.nextRef = h.nextRef →
    h'.snapshotRefs = h.snapshotRefs → R h h'

theorem evolves_laws : BoundaryLaws lim Evolves where
  trans := Evolves.trans
  frame wf same next _ _ := Evolves.of_entries wf same next
  quiet wf same next _ _ _ := Evolves.of_entries wf same next
  tally wf same next _ := Evolves.of_entries wf same next
  notify wf same next _ := Evolves.of_entries wf same next
  link name wf readParent := Evolves.link wf readParent name
  unlink p r wf := Evolves.unlink wf p r
  update wf benign := Evolves.updateEntry wf fun e read => (benign e read).1

end Laws

section Calls

variable {lim : Limits} {R : Hub → Hub → Prop}

theorem releaseFuel_edits (laws : PoolLaws lim R) : ∀ (fuel r : Nat) {h h' : Hub}, WellFormed lim h →
    (releaseFuel fuel r).run h = .ok ((), h') → R h h'
  | 0, _, _, _, wf, run => by cases run; exact laws.frame wf rfl rfl rfl rfl
  | fuel + 1, r, h, h', wf, run => by
    rcases releaseFuel_succ_inv run with ⟨-, rfl⟩ | ⟨e, read, many, rfl⟩ | ⟨e, p, read, -, up, leaf, next⟩
    · exact laws.frame wf rfl rfl rfl rfl
    · refine laws.update wf fun e' read' => ⟨⟨rfl, rfl, fun _ => ?_⟩, id⟩
      rw [read] at read'
      cases read'
      show 0 < e.refCount - 1
      omega
    · exact laws.trans (laws.unlink p r wf) (releaseFuel_edits laws fuel p (wf.unlink read up leaf) next)

theorem leMemRelease_edits (laws : PoolLaws lim R) {r : Nat} {h h' : Hub} (wf : WellFormed lim h)
    (run : (leMemRelease r).run h = .ok ((), h')) : R h h' :=
  releaseFuel_edits laws _ _ wf run

theorem cleanupFuel_edits (laws : PoolLaws lim R) (first : Nat) : ∀ (fuel tmp : Nat) {h h' : Hub},
    WellFormed lim h → (cleanupFuel first fuel tmp).run h = .ok ((), h') → R h h'
  | 0, _, _, _, wf, run => by cases run; exact laws.frame wf rfl rfl rfl rfl
  | fuel + 1, tmp, h, h', wf, run => by
    simp only [cleanupFuel, run_get_bind] at run
    obtain ⟨⟨⟩, h1, released, rest⟩ := run_bind_eq_ok run
    have wf1 := leMemRelease_wf wf released
    have first1 := leMemRelease_edits laws wf released
    split at rest
    · cases rest; exact first1
    · split at rest
      · exact laws.trans first1 (cleanupFuel_edits laws first fuel _ wf1 rest)
      · cases rest; exact first1

theorem cleanup_edits (laws : PoolLaws lim R) {firstNew : Option Nat} {current : Nat} {h h' : Hub}
    (wf : WellFormed lim h) (run : (cleanup firstNew current).run h = .ok ((), h')) : R h h' := by
  cases firstNew with
  | none => cases run; exact laws.frame wf rfl rfl rfl rfl
  | some first => exact cleanupFuel_edits laws first _ _ wf run

theorem addChild_none_edits (laws : PoolLaws lim R) {p : Nat} {pe : Entry} {name : List Char} {r? : Option Nat}
    {h h' : Hub} (wf : WellFormed lim h) (readParent : h.entries p = some pe)
    (run : (addChild lim (some p) name none).run h = .ok (r?, h')) : R h h' := by
  have tail : R h { h with allocs := h.allocs.tail } := laws.frame wf rfl rfl rfl rfl
  have readParent0 : ({ h with allocs := h.allocs.tail } : Hub).entries p = some pe := readParent
  rw [addChild_none_run] at run
  split at run
  · rw [linkNewChild_run] at run
    split_ifs at run
    cases run
    have wf0 : WellFormed lim { h with allocs := h.allocs.tail } := wf.congr rfl rfl
    exact laws.trans tail (laws.link name wf0 readParent0)
  · cases run
    exact tail

theorem addChild_some_edits (laws : PoolLaws lim R) {p c : Nat} {name : List Char} {r? : Option Nat} {h h' : Hub}
    (wf : WellFormed lim h) (run : (addChild lim (some p) name (some c)).run h = .ok (r?, h')) : R h h' := by
  rw [addChild_some_run] at run
  dsimp only at run
  split_ifs at run
  cases run
  exact laws.update wf fun e _ => ⟨Entry.Continues.refl e, fun zombie => by simp [Entry.flags] at zombie⟩

theorem createEntryLoop_edits (laws : PoolLaws lim R) : ∀ (names : List (List Char)) (current : Nat)
    (firstNew : Option Nat) {h h' : Hub} {res : Option Nat}, WellFormed lim h → (h.entries current).isSome →
    (∀ name ∈ names, '/' ∉ name) →
    (createEntryLoop lim current firstNew names).run h = .ok (res, h') → R h h'
  | [], _, _, _, _, _, wf, _, _, run => by cases run; exact laws.frame wf rfl rfl rfl rfl
  | name :: rest, current, firstNew, h, h', res, wf, live, slash, run => by
    obtain ⟨pe, readParent⟩ := Option.isSome_iff_exists.mp live
    have slashRest : ∀ n ∈ rest, '/' ∉ n := fun n member => slash n (by simp [member])
    obtain ⟨checked, step⟩ := createEntryLoop_cons_inv run
    have valid := checkEntryName_ok_valid checked (slash name (by simp))
    rcases step with ⟨child, found, -, -, next⟩ | ⟨child, h2, found, -, -, added, next⟩ |
      ⟨c, h2, -, added, next⟩ | ⟨h2, -, added, cleaned, -⟩
    · exact createEntryLoop_edits laws rest child firstNew wf (findChildEx_live found) slashRest next
    · have live2 : (h2.entries child).isSome := by
        rw [(addChild_some_live added).2]
        exact findChildEx_live found
      exact laws.trans (addChild_some_edits laws wf added)
        (createEntryLoop_edits laws rest child _ (addChild_some_wf wf added) live2 slashRest next)
    · exact laws.trans (addChild_none_edits laws wf readParent added) (createEntryLoop_edits laws rest c _
        (addChild_none_wf wf readParent valid added) (addChild_none_live wf readParent added) slashRest next)
    · exact laws.trans (addChild_none_edits laws wf readParent added)
        (cleanup_edits laws (addChild_none_wf wf readParent valid added) cleaned)

theorem resTreeGetEntry_edits (laws : PoolLaws lim R) {base : Nat} {path : List Char} {res : LeResult × Option Nat}
    {h h' : Hub} (wf : WellFormed lim h) (live : h.Live base)
    (run : (resTreeGetEntry lim base path).run h = .ok (res, h')) : R h h' := by
  unfold resTreeGetEntry at run
  split at run
  · cases run; exact laws.frame wf rfl rfl rfl rfl
  · rw [run_get_bind] at run
    obtain ⟨found, h1, lookup, rest⟩ := run_bind_eq_ok run
    obtain ⟨-, rfl⟩ := run_liftM_eq_ok lookup
    split at rest
    · cases rest; exact laws.frame wf rfl rfl rfl rfl
    · obtain ⟨created, h2, creating, rest⟩ := run_bind_eq_ok rest
      split at rest <;> cases rest <;>
        exact createEntryLoop_edits laws _ base none wf live (fun _ => slash_not_mem_segment) creating

theorem resTreeGetObsNamespace_edits (laws : PoolLaws lim R) {obs : Nat} {h h' : Hub} (wf : WellFormed lim h)
    (run : (resTreeGetObsNamespace lim).run h = .ok (obs, h')) : R h h' := by
  obtain ⟨got, h1, getting, rest⟩ := run_bind_eq_ok run
  obtain ⟨-, rest⟩ := run_check_bind_eq_ok rest
  split at rest <;> cases rest
  exact resTreeGetEntry_edits laws wf wf.root_live getting

theorem createPlaceholderForNamespace_edits (laws : EditLaws lim R) {base entry : Nat} {path : List Char}
    {ret : LeResult} {h h' : Hub} (wf : WellFormed lim h)
    (run : (createPlaceholderForNamespace lim base path entry).run h = .ok (ret, h')) : R h h' := by
  unfold createPlaceholderForNamespace at run
  rw [run_get_bind] at run
  obtain ⟨-, run⟩ := run_check_bind_eq_ok run
  obtain ⟨obs, h1, gotObs, run⟩ := run_bind_eq_ok run
  have wf1 := resTreeGetObsNamespace_wf wf gotObs
  obtain ⟨res?, h2, placing, rest⟩ := run_bind_eq_ok run
  rw [resCreatePlaceholder_run] at placing
  have placed : R h1 h2 ∧ WellFormed lim h2 := by
    split at placing <;> cases placing
    · exact ⟨laws.quiet wf1 rfl rfl rfl rfl trivial, wf1.congr rfl rfl⟩
    · exact ⟨laws.frame wf1 rfl rfl rfl rfl, wf1.congr rfl rfl⟩
  refine laws.trans (resTreeGetObsNamespace_edits laws.toPoolLaws wf gotObs) (laws.trans placed.1 ?_)
  split at rest
  · simp only [StateT.run_bind, run_updateEntry, except_bind_ok, run_pure] at rest
    cases rest
    exact laws.update placed.2 fun e _ => ⟨Entry.Continues.refl e, fun zombie => by simp at zombie⟩
  · cases rest
    exact laws.frame placed.2 rfl rfl rfl rfl

theorem findOrCreateEntry_edits (laws : PoolLaws lim R) {base : Nat} {path : List Char} {res : Option Nat × Bool}
    {h h' : Hub} (wf : WellFormed lim h) (live : h.Live base)
    (run : (findOrCreateEntry lim base path).run h = .ok (res, h')) : R h h' := by
  obtain ⟨e?, created⟩ := res
  rcases findOrCreateEntry_inv run with ⟨-, -, -, -, rfl⟩ | ⟨-, creating, -⟩
  · exact laws.frame wf rfl rfl rfl rfl
  · exact createEntryLoop_edits laws _ base none wf live (fun _ => slash_not_mem_segment) creating

theorem promoteNamespace_edits (laws : EditLaws lim R) {base : Nat} {path : List Char} {entry? : Option Nat}
    {ret : LeResult} {h h' : Hub} (wf : WellFormed lim h)
    (run : (promoteNamespace lim base path entry?).run h = .ok (ret, h')) : R h h' := by
  cases entry? with
  | none => cases run; exact laws.frame wf rfl rfl rfl rfl
  | some e =>
    simp only [promoteNamespace, run_get_bind] at run
    split at run
    · obtain ⟨placed, h1, placing, finished⟩ := run_bind_eq_ok run
      cases finished
      exact createPlaceholderForNamespace_edits laws wf placing
    · cases run; exact laws.frame wf rfl rfl rfl rfl

theorem releaseCreated_edits (laws : PoolLaws lim R) {entry? : Option Nat} {created : Bool} {h h' : Hub}
    (wf : WellFormed lim h) (run : (releaseCreated entry? created).run h = .ok ((), h')) : R h h' := by
  unfold releaseCreated at run
  split at run
  · exact leMemRelease_edits laws wf run
  · cases run; exact laws.frame wf rfl rfl rfl rfl

theorem resTreeGetResource_edits (laws : EditLaws lim R) {base : Nat} {path : List Char}
    {res : LeResult × Option Nat} {h h' : Hub} (wf : WellFormed lim h) (live : h.Live base)
    (run : (resTreeGetResource lim base path).run h = .ok (res, h')) : R h h' := by
  unfold resTreeGetResource at run
  split at run
  · cases run; exact laws.frame wf rfl rfl rfl rfl
  · obtain ⟨⟨entry?, created⟩, h1, walked, run⟩ := run_bind_eq_ok run
    obtain ⟨ret, h2, promoted, rest⟩ := run_bind_eq_ok run
    have wf1 := findOrCreateEntry_wf wf live walked
    have edited := laws.trans (findOrCreateEntry_edits laws.toPoolLaws wf live walked) (promoteNamespace_edits laws wf1 promoted)
    split at rest
    · cases rest; exact edited
    · obtain ⟨⟨⟩, h3, released, finished⟩ := run_bind_eq_ok rest
      cases finished
      exact laws.trans edited (releaseCreated_edits laws.toPoolLaws (promoteNamespace_wf wf1 promoted) released)

theorem callResourceTreeChangeHandlers_edits (laws : BoundaryLaws lim R) {entry : Nat} {type : EntryType}
    {op : ResourceOperation} {h h' : Hub} (wf : WellFormed lim h)
    (run : (callResourceTreeChangeHandlers lim entry type op).run h = .ok ((), h')) : R h h' := by
  obtain ⟨rendered, -, rfl⟩ := callResourceTreeChangeHandlers_frame run
  exact laws.notify wf rfl rfl rfl

theorem BoundaryLaws.retype_notify (laws : BoundaryLaws lim R) {entry : Nat} {type : EntryType} {op : ResourceOperation}
    {h h' : Hub} (resource : type ≠ .«namespace») (wf : WellFormed lim h)
    (wf1 : WellFormed lim (h.updateEntry entry fun x => { x with type := type }))
    (run : (callResourceTreeChangeHandlers lim entry type op).run (h.updateEntry entry fun x => { x with type := type }) =
      .ok ((), h')) : R h h' :=
  have retyped : R h (h.updateEntry entry fun x => { x with type := type }) :=
    laws.update wf fun e _ => ⟨Entry.Continues.refl e, fun zombie => by simp [resource] at zombie⟩
  laws.trans retyped (callResourceTreeChangeHandlers_edits laws wf1 run)

theorem resTreeCreateIo_edits (laws : BoundaryLaws lim R) {type : EntryType} (resourceType : type ≠ .«namespace»)
    {base : Nat} {path : List Char} {ret : LeResult} {h h' : Hub} (wf : WellFormed lim h) (live : h.Live base)
    (run : (resTreeCreateIo type lim base path).run h = .ok (ret, h')) : R h h' := by
  unfold resTreeCreateIo at run
  obtain ⟨⟨ret, entry?⟩, h1, got, run⟩ := run_bind_eq_ok run
  have wf1 := resTreeGetResource_wf wf live got
  refine laws.trans (resTreeGetResource_edits laws.toEditLaws wf live got) ?_
  dsimp only at run
  split at run
  · rw [run_get_bind] at run
    obtain ⟨placeholder, run⟩ := run_check_bind_eq_ok run
    rw [run_updateEntry_bind] at run
    obtain ⟨⟨⟩, h2, notified, finished⟩ := run_bind_eq_ok run
    cases finished
    refine laws.retype_notify resourceType wf1 (wf1.retype ?_ resourceType) notified
    simp only [beq_iff_eq] at placeholder
    simp [placeholder]
  · cases run; exact laws.frame wf1 rfl rfl rfl rfl

theorem resTreeGetObservation_edits (laws : BoundaryLaws lim R) {base : Nat} {path : List Char}
    {res : LeResult × Written Nat} {h h' : Hub} (wf : WellFormed lim h) (live : h.Live base)
    (run : (resTreeGetObservation lim base path).run h = .ok (res, h')) : R h h' := by
  unfold resTreeGetObservation at run
  obtain ⟨⟨ret, entry?⟩, h1, got, run⟩ := run_bind_eq_ok run
  have wf1 := resTreeGetResource_wf wf live got
  refine laws.trans (resTreeGetResource_edits laws.toEditLaws wf live got) ?_
  dsimp only at run
  split at run
  · rw [run_get_bind] at run
    split at run
    · rename_i placeholder
      rw [run_updateEntry_bind] at run
      obtain ⟨⟨⟩, h2, notified, finished⟩ := run_bind_eq_ok run
      cases finished
      refine laws.retype_notify (by decide) wf1 (wf1.retype ?_ (by decide)) notified
      simp only [beq_iff_eq] at placeholder
      simp [placeholder]
    · split at run <;> cases run <;> exact laws.frame wf1 rfl rfl rfl rfl
  · cases run; exact laws.frame wf1 rfl rfl rfl rfl

theorem snapshotRecordNodeDeletion_edits (laws : TallyLaws lim R) {keep : Bool} {entry : Nat} {h h' : Hub}
    (wf : WellFormed lim h) (run : (snapshotRecordNodeDeletion keep entry).run h = .ok ((), h')) : R h h' := by
  cases keep <;> simp [snapshotRecordNodeDeletion] at run <;> subst run
  · exact laws.quiet wf rfl rfl rfl rfl trivial
  · have noted : R h { h with log := h.log ++ [.nodeDeletion entry] } := laws.quiet wf rfl rfl rfl rfl trivial
    have wf1 : WellFormed lim { h with log := h.log ++ [.nodeDeletion entry] } := wf.congr rfl rfl
    have counted : R _ (({ h with log := h.log ++ [.nodeDeletion entry] } : Hub).updateEntry entry
        fun e => { e with refCount := e.refCount + 1 }) :=
      laws.update wf1 fun e _ => ⟨⟨rfl, rfl, fun _ => Nat.succ_pos _⟩, id⟩
    exact laws.trans noted (laws.trans counted (laws.tally (wf1.setRefCount entry (· + 1)) rfl rfl rfl))

theorem detachAndRelease_edits (laws : TallyLaws lim R) {keep : Bool} {entry : Nat} {h h' : Hub}
    (wf : WellFormed lim h) (run : (detachAndRelease keep entry).run h = .ok ((), h')) : R h h' := by
  simp only [detachAndRelease, run_updateEntry_bind] at run
  obtain ⟨⟨⟩, h1, recorded, released⟩ := run_bind_eq_ok run
  have wf0 : WellFormed lim (h.updateEntry entry fun e => { e with u := .flags {}, type := .«namespace» }) :=
    wf.updateEntry (fun _ => ⟨rfl, rfl, rfl⟩) fun x _ => detached_ok x
  have detached : R h (h.updateEntry entry fun e => { e with u := .flags {}, type := .«namespace» }) :=
    laws.update wf fun e _ => ⟨Entry.Continues.refl e, fun zombie => by simp [Entry.flags] at zombie⟩
  exact laws.trans detached (laws.trans (snapshotRecordNodeDeletion_edits laws wf0 recorded)
    (leMemRelease_edits laws.toPoolLaws (snapshotRecordNodeDeletion_wf wf0 recorded) released))

theorem resTreeDeleteIo_edits (laws : BoundaryLaws lim R) {hasAdminSettings keep : Bool} {entry : Nat} {h h' : Hub}
    (wf : WellFormed lim h) (run : (resTreeDeleteIo hasAdminSettings keep lim entry).run h = .ok ((), h')) :
    R h h' := by
  unfold resTreeDeleteIo at run
  rw [run_get_bind] at run
  obtain ⟨⟨⟩, h1, notified, rest⟩ := run_bind_eq_ok run
  have wf1 := callResourceTreeChangeHandlers_wf wf notified
  refine laws.trans (callResourceTreeChangeHandlers_edits laws wf notified) ?_
  split at rest
  · cases rest
    exact laws.update wf1 fun e _ => ⟨Entry.Continues.refl e, fun zombie => by simp at zombie⟩
  · exact detachAndRelease_edits laws.toTallyLaws wf1 rest

theorem resTreeDeleteObservation_edits (laws : BoundaryLaws lim R) {keep : Bool} {entry : Nat} {h h' : Hub}
    (wf : WellFormed lim h) (run : (resTreeDeleteObservation keep lim entry).run h = .ok ((), h')) : R h h' := by
  obtain ⟨⟨⟩, h1, notified, rest⟩ := run_bind_eq_ok run
  exact laws.trans (callResourceTreeChangeHandlers_edits laws wf notified)
    (detachAndRelease_edits laws.toTallyLaws (callResourceTreeChangeHandlers_wf wf notified) rest)

theorem snapshotRelease_edits (laws : TallyLaws lim R) {entry : Nat} {h h' : Hub} (wf : WellFormed lim h)
    (run : (snapshotRelease entry).run h = .ok ((), h')) : R h h' := by
  obtain ⟨⟨⟩, h1, dropped, released⟩ := run_bind_eq_ok run
  have same : h1.entries = h.entries ∧ h1.nextRef = h.nextRef ∧ h1.log = h.log := by cases dropped; exact ⟨rfl, rfl, rfl⟩
  exact laws.trans (laws.tally wf same.1 same.2.1 same.2.2)
    (leMemRelease_edits laws.toPoolLaws (wf.congr same.1 same.2.1) released)

theorem onNamespace_edits (laws : PoolLaws lim R) {entry : Nat} {f : Flags → Flags} {h h' : Hub}
    (wf : WellFormed lim h) (run : (onNamespace entry f).run h = .ok ((), h'))
    (keeps : ∀ bits, (f bits).deleted = bits.deleted) : R h h' := by
  simp only [onNamespace, run_get_bind] at run
  split at run
  · cases run
    exact laws.update wf fun e _ => ⟨Entry.Continues.refl e, fun zombie => by simpa [Entry.flags, keeps] using zombie⟩
  · cases run; exact laws.frame wf rfl rfl rfl rfl

theorem Op.run_edits (laws : BoundaryLaws lim R) {op : Op} {h h' : Hub} (wf : WellFormed lim h) (allowed : op.Allowed h)
    (unmarked : ∀ e, op ≠ .setDeleted e) (run : (op.run lim).run h = .ok ((), h')) : R h h' := by
  cases op with
  | getEntry base path =>
    obtain ⟨_, run⟩ := run_discard_eq_ok run
    exact resTreeGetEntry_edits laws.toPoolLaws wf allowed run
  | getResource base path =>
    obtain ⟨_, run⟩ := run_discard_eq_ok run
    exact resTreeGetResource_edits laws.toEditLaws wf allowed run
  | createInput base path =>
    obtain ⟨_, run⟩ := run_discard_eq_ok run
    exact resTreeCreateIo_edits laws (by decide) wf allowed run
  | createOutput base path =>
    obtain ⟨_, run⟩ := run_discard_eq_ok run
    exact resTreeCreateIo_edits laws (by decide) wf allowed run
  | getObservation base path =>
    obtain ⟨_, run⟩ := run_discard_eq_ok run
    exact resTreeGetObservation_edits laws wf allowed run
  | deleteIo entry hasAdminSettings keep => exact resTreeDeleteIo_edits laws wf run
  | deleteObservation entry keep => exact resTreeDeleteObservation_edits laws wf run
  | setDeleted entry => exact absurd rfl (unmarked entry)
  | setRelevance entry relevant => exact onNamespace_edits laws.toPoolLaws wf run fun _ => rfl
  | setClearNewnessFlag entry => exact onNamespace_edits laws.toPoolLaws wf run fun _ => rfl
  | clearNewness entry => exact onNamespace_edits laws.toPoolLaws wf run fun _ => rfl
  | snapshotRelease entry => exact snapshotRelease_edits laws.toTallyLaws wf run

theorem resTreeSetDeleted_evolves {entry : Nat} {h h' : Hub} (wf : WellFormed lim h)
    (run : (resTreeSetDeleted entry).run h = .ok ((), h')) : Evolves h h' := by
  simp only [resTreeSetDeleted, run_get_bind] at run
  obtain ⟨-, run⟩ := run_check_bind_eq_ok run
  obtain ⟨-, run⟩ := run_check_bind_eq_ok run
  cases run
  exact Evolves.updateEntry wf fun e _ => Entry.Continues.refl e

theorem Op.run_evolves {op : Op} {h h' : Hub} (wf : WellFormed lim h) (allowed : op.Allowed h)
    (run : (op.run lim).run h = .ok ((), h')) : Evolves h h' := by
  cases op with
  | setDeleted entry => exact resTreeSetDeleted_evolves wf run
  | _ => exact Op.run_edits evolves_laws wf allowed (fun _ => nofun) run

theorem Op.Step.evolves {op : Op} {plan : List Bool} {h h' : Hub} (wf : WellFormed lim h)
    (step : op.Step lim plan h h') : Evolves h h' :=
  have wf0 : WellFormed lim { h with allocs := plan } := wf.congr rfl rfl
  have planned : Evolves h { h with allocs := plan } := Evolves.of_entries wf rfl rfl
  planned.trans (Op.run_evolves wf0 step.1 step.2)

end Calls

section Sessions

variable {lim : Limits} {h h' : Hub}

def Session (lim : Limits) : Hub → Hub → Prop :=
  Relation.ReflTransGen fun h h' => ∃ op plan, Op.Step lim op plan h h'

theorem Session.reachable_evolves (reach : Reachable lim h) (session : Session lim h h') :
    Reachable lim h' ∧ Evolves h h' := by
  induction session with
  | refl => exact ⟨reach, Evolves.of_entries (reachable_wf reach) rfl rfl⟩
  | tail _ step ih =>
    obtain ⟨op, plan, step⟩ := step
    exact ⟨.step op plan ih.1 step, ih.2.trans (step.evolves (reachable_wf ih.1))⟩

theorem afterCall_step {op : Op} {plan : List Bool} (ok : (runCalls lim [(op, plan)] h).isSome = true) :
    Op.Step lim op plan h (afterCall lim op plan h) := by
  simp only [runCalls] at ok
  split_ifs at ok with allowed
  · split at ok
    · rename_i h1 ran
      have after : afterCall lim op plan h = h1 := by simp [afterCall, runCalls, allowed, ran]
      exact after ▸ ⟨allowed, ran⟩
    · cases ok
  · cases ok

theorem reachable_counted (reach : Reachable lim h) : ∀ r e, h.entries r = some e → 0 < e.refCount := by
  induction reach with
  | init =>
    intro r e read
    rw [initialHub_entries] at read
    split_ifs at read
    cases read
    exact Nat.one_pos
  | step op plan reach step ih => exact (step.evolves (reachable_wf reach)).positive ih

/-- GetPath reads only the names and parents of an entry and its ancestors, which a later hub
keeps for every block below the earlier nextRef. -/
theorem getPathFuel_of_evolves (evolves : Evolves h h') (wf' : WellFormed lim h') (base size : Nat) :
    ∀ fuel r, h'.Live r → r < h.nextRef → getPathFuel h' base fuel size r = getPathFuel h base fuel size r
  | fuel, r, live', below => by
    obtain ⟨e', read'⟩ := Option.isSome_iff_exists.mp live'
    obtain ⟨e, read, name, up, -⟩ := evolves.old r e' read' below
    by_cases root : r = rootPtr
    · subst root
      unfold getPathFuel
      simp only [read, read', Option.getD_some, name, up, if_true]
    · obtain ⟨p, pe, parentIs, lt, readParent, -⟩ := wf'.parent r e' read' root
      cases fuel with
      | zero =>
        unfold getPathFuel
        simp only [read, read', Option.getD_some, name, up]
      | succ f =>
        have inner := getPathFuel_of_evolves evolves wf' base size f p (by simp [Hub.Live, readParent])
          (by omega)
        rw [up] at parentIs
        unfold getPathFuel
        simp only [read, read', Option.getD_some, name, up, parentIs, inner]

/-- Over any session of calls from a reachable tree along which an entry stays allocated, live
after every call, the entry keeps its name and its parent, and resTree_GetPath renders it the
same way against every base and buffer size; every live entry holds a reference. A call frees
entries only after its last allocation, so an entry live before and after a call was not freed
by it. -/
theorem session_keeps_paths (reach : Reachable lim h) {r : Nat}
    (session : Relation.ReflTransGen (fun h h' => h'.Live r ∧ ∃ op plan, Op.Step lim op plan h h') h h')
    (live : h.Live r) (base size : Nat) :
    (h'.entries r).map (fun e => (e.name, e.parentPtr)) = (h.entries r).map (fun e => (e.name, e.parentPtr)) ∧
      resTreeGetPath h' size base r = resTreeGetPath h size base r ∧ ∀ x e, h'.entries x = some e → 0 < e.refCount := by
  obtain ⟨reach', evolves⟩ := Session.reachable_evolves reach (session.mono fun _ _ step => step.2 : Session lim h h')
  have live' : h'.Live r := by
    cases session with
    | refl => exact live
    | tail _ step => exact step.1
  obtain ⟨e, read⟩ := Option.isSome_iff_exists.mp live
  have below := (reachable_wf reach).below_next r e read
  obtain ⟨e', read'⟩ := Option.isSome_iff_exists.mp live'
  obtain ⟨e0, read0, name, up, -⟩ := evolves.old r e' read' below
  rw [read] at read0
  cases read0
  exact ⟨by simp [read, read', name, up], getPathFuel_of_evolves evolves (reachable_wf reach') base size _ r live' below,
    reachable_counted reach'⟩

theorem session_keeps_paths_of_ab : Reachable smallLimits hubInputAB ∧
    Relation.ReflTransGen (fun h h' => h'.Live 2 ∧ ∃ op plan, Op.Step smallLimits op plan h h') hubInputAB
      hubInputAgainA ∧ hubInputAB.Live 2 ∧
    (hubInputAgainA.entries 2).map (fun e => (e.name, e.parentPtr)) =
      (hubInputAB.entries 2).map (fun e => (e.name, e.parentPtr)) ∧
    resTreeGetPath hubInputAgainA 64 rootPtr 2 = resTreeGetPath hubInputAB 64 rootPtr 2 ∧
    ∀ x e, hubInputAgainA.entries x = some e → 0 < e.refCount :=
  have reach : Reachable smallLimits hubInputAB := afterCall_reachable (afterCall_reachable .init rfl) rfl
  have session : Relation.ReflTransGen (fun h h' => h'.Live 2 ∧ ∃ op plan, Op.Step smallLimits op plan h h')
      hubInputAB hubInputAgainA :=
    ((Relation.ReflTransGen.single
      ⟨by decide, _, _, @afterCall_step smallLimits hubInputAB (.createInput rootPtr "a".toList) [] rfl⟩).tail
      ⟨by decide, _, _, @afterCall_step smallLimits _ (.deleteIo 1 false false) [] rfl⟩).tail
      ⟨by decide, _, _, @afterCall_step smallLimits hubDeletedInputA (.createInput rootPtr "a".toList) [] rfl⟩
  ⟨reach, session, by decide, session_keeps_paths reach session (by decide) rootPtr 64⟩

end Sessions

end DataHub
