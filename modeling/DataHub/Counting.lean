import DataHub.Zombie

/-!
The reference counts of the entries. AddChild gives a fresh entry the reference of its
allocation and takes one on the parent for the child; an attached resource is owed one; the
snapshotter takes one on each deletion it records and drops it later; EntryDestructor, at the
last reference, releases the parent's. `Counted` says that every live entry's count covers what
it is owed: one per child, one for an attached resource, one per reference the snapshotter keeps,
and for the root the reference of its allocation, which nothing releases; and that the
snapshotter keeps no reference on a freed block. A release of an entry with a reference to spare
then never reaches EntryDestructor's assertions and frees only childless namespaces that nothing
else holds.

CreatePlaceholderForNamespace attaches a resource to a namespace without taking a reference, so
the counts stay covered only when the namespace has one to spare: a fresh entry has its
allocation's, a namespace that DeleteIO or DeleteObservation left behind has none.
-/

namespace DataHub

/-- The references entry `r` is owed. -/
def held (h : Hub) (r : Nat) (e : Entry) : Nat :=
  e.childList.length + (if e.type = .«namespace» then 0 else 1) + h.snapshotRefs r +
    (if r = rootPtr then 1 else 0)

structure Counted (h : Hub) : Prop where
  covers : ∀ r e, h.entries r = some e → held h r e ≤ e.refCount
  freed : ∀ r, h.entries r = none → h.snapshotRefs r = 0

/-- Entry `r` holds a reference beyond those it is owed. -/
def Spare (h : Hub) (r : Nat) : Prop := ∀ e, h.entries r = some e → held h r e < e.refCount

/-- The bound of the module's lifecycle: an entry's count covers one reference per child, one for
an attached resource and one per reference the snapshotter keeps, which is what `held` owes less
the root's own reference. -/
def RefCountCovers (h : Hub) : Prop :=
  ∀ r e, h.entries r = some e → held h r e - (if r = rootPtr then 1 else 0) ≤ e.refCount

theorem Counted.refCountCovers {h : Hub} (counted : Counted h) : RefCountCovers h :=
  fun r e read => (Nat.sub_le _ _).trans (counted.covers r e read)

/-- The second promotion takes no reference on "a": the Input holds one count for one child.
Deleting it again fires EntryDestructor's assertion; deleting "a/b" frees it. -/
theorem repromoted_input_undercounted : Reachable smallLimits hubInputAgainA ∧
    typeOf hubInputAgainA 1 = .input ∧
    (hubInputAgainA.entries 1).map (fun e => (e.refCount, e.childList)) = some (1, [2]) ∧
    ¬ RefCountCovers hubInputAgainA ∧
    (resTreeDeleteIo false false smallLimits 1).run hubInputAgainA = .error .destructorChildren ∧
    ((resTreeDeleteIo false false smallLimits 2).run hubInputAgainA).map (fun r => (r.2.entries 1).isSome) =
      .ok false :=
  ⟨hubInputAgainA_reachable, rfl, rfl, fun covers => absurd (covers 1 _ rfl) (by decide), rfl, rfl⟩

/-- The types the admin handlers are told of: an entry takes one with an ADDED notification and
leaves it with a REMOVED one. -/
def EntryType.Announced (t : EntryType) : Prop := t = .input ∨ t = .output ∨ t = .observation

instance : DecidablePred EntryType.Announced := fun t =>
  inferInstanceAs (Decidable (t = .input ∨ t = .output ∨ t = .observation))

/-- Entry `x` has an announced type in `h` exactly when it has one in `h'`, and then the same one:
it is neither freed, nor converted, nor made a resource. -/
def ResourceStays (h h' : Hub) (x : Nat) : Prop :=
  (typeOf h x).Announced ∨ (typeOf h' x).Announced → typeOf h' x = typeOf h x

section Edits

variable {lim : Limits} {h h' : Hub}

theorem held_congr (snap : h'.snapshotRefs = h.snapshotRefs) : held h' = held h := by
  funext r e
  rw [held, held, snap]

theorem Counted.congr (counted : Counted h) (same : h'.entries = h.entries)
    (snap : h'.snapshotRefs = h.snapshotRefs) : Counted h' where
  covers r e read := held_congr snap ▸ counted.covers r e (same ▸ read)
  freed r gone := snap ▸ counted.freed r (same ▸ gone)

theorem Spare.congr {r : Nat} (spare : Spare h r) (same : h'.entries = h.entries)
    (snap : h'.snapshotRefs = h.snapshotRefs) : Spare h' r :=
  fun e read => held_congr snap ▸ spare e (same ▸ read)

theorem Counted.updateEntry (counted : Counted h) {r : Nat} {f : Entry → Entry}
    (owed : ∀ e, h.entries r = some e → held h r (f e) ≤ (f e).refCount) : Counted (h.updateEntry r f) where
  covers x e' read := by
    simp only [Hub.updateEntry_entries] at read
    split_ifs at read with xr
    · subst xr
      obtain ⟨e, old, rfl⟩ := Option.map_eq_some'.mp read
      exact owed e old
    · exact counted.covers x e' read
  freed x gone := by
    simp only [Hub.updateEntry_entries] at gone
    split_ifs at gone with xr
    · subst xr
      exact counted.freed x (Option.map_eq_none'.mp gone)
    · exact counted.freed x gone

theorem ResourceStays.trans {h'' : Hub} {x : Nat} (first : ResourceStays h h' x) (second : ResourceStays h' h'' x) :
    ResourceStays h h'' x := by
  rintro (announced | announced)
  · have kept := first (.inl announced)
    exact (second (.inl (kept ▸ announced))).trans kept
  · have kept := second (.inr announced)
    exact kept.trans (first (.inr (kept ▸ announced)))

theorem ResourceStays.of_eq {x : Nat} (same : typeOf h' x = typeOf h x) : ResourceStays h h' x := fun _ => same

theorem ResourceStays.of_neither {x : Nat} (before : ¬(typeOf h x).Announced) (after : ¬(typeOf h' x).Announced) :
    ResourceStays h h' x := fun announced => (announced.elim before after).elim

theorem ResourceStays.of_entries {x : Nat} (same : h'.entries = h.entries) : ResourceStays h h' x :=
  .of_eq (by rw [typeOf, typeOf, same])

theorem unannounced_updateEntry {r : Nat} {f : Entry → Entry} (sets : ∀ e, ¬(f e).type.Announced) :
    ¬(typeOf (h.updateEntry r f) r).Announced := by
  cases read : h.entries r with
  | none => simp only [typeOf, Hub.updateEntry_entries, if_true, read, Option.map_none', Option.getD_none]; decide
  | some e => rw [typeOf_updateEntry_self read]; exact sets e

theorem ResourceStays.updateEntry {x r : Nat} {f : Entry → Entry}
    (keep : x = r → ∀ e, h.entries r = some e → e.type.Announced ∨ (f e).type.Announced → (f e).type = e.type) :
    ResourceStays h (h.updateEntry r f) x := by
  by_cases xr : x = r
  · subst xr
    cases read : h.entries x with
    | none => exact .of_eq (by simp [typeOf, read])
    | some e =>
      intro announced
      rw [typeOf_updateEntry_self read, typeOf_of_read read] at announced ⊢
      exact keep rfl e read announced
  · exact .of_eq (by simp only [typeOf, Hub.updateEntry_entries, if_neg xr])

theorem ResourceStays.link (wf : WellFormed lim h) {p : Nat} {pe : Entry} (readParent : h.entries p = some pe)
    (name : List Char) {x : Nat} : ResourceStays h (h.link p name) x := by
  rw [ResourceStays, typeOf, typeOf, link_entries wf readParent]
  split_ifs with xp fresh
  · subst xp
    exact fun _ => by rw [readParent]; rfl
  · rw [fresh, wf.next_free]
    exact fun announced => by simp [freshEntry, EntryType.Announced] at announced
  · exact fun _ => rfl

theorem ResourceStays.unlink {p r : Nat} {pe : Entry} (readParent : h.entries p = some pe) (distinct : p ≠ r)
    (ns : typeOf h r = .«namespace») {x : Nat} : ResourceStays h (h.unlink p r) x := by
  by_cases freed : x = r
  · subst freed
    refine .of_neither (by rw [ns]; decide) ?_
    rw [typeOf, unlink_entries readParent distinct, if_pos rfl]
    decide
  · rw [ResourceStays, typeOf, typeOf, unlink_entries readParent distinct, if_neg freed]
    split_ifs with xp
    · subst xp
      exact fun _ => by rw [readParent]; rfl
    · exact fun _ => rfl

theorem Spare.updateEntry {x r : Nat} {f : Entry → Entry} (spare : Spare h x)
    (owed : x = r → ∀ e, h.entries r = some e → held h r (f e) < (f e).refCount) : Spare (h.updateEntry r f) x := by
  intro e' read
  simp only [Hub.updateEntry_entries] at read
  split_ifs at read with xr
  · subst xr
    obtain ⟨e, old, rfl⟩ := Option.map_eq_some'.mp read
    exact owed rfl e old
  · exact spare e' read

theorem Counted.link (wf : WellFormed lim h) {p : Nat} {pe : Entry} (readParent : h.entries p = some pe)
    (name : List Char) (counted : Counted h) :
    Counted (h.link p name) ∧ Spare (h.link p name) h.nextRef ∧ ∀ x, Spare h x → Spare (h.link p name) x := by
  have parent : ∀ c, held h p { pe with childList := pe.childList ++ [c], refCount := pe.refCount + 1 } =
      held h p pe + 1 := fun c => by simp only [held, List.length_append, List.length_singleton]; omega
  have fresh : held h h.nextRef (freshEntry (some p) name) = 0 := by
    have root : h.nextRef ≠ rootPtr := fun same => by
      obtain ⟨e, read, -⟩ := wf.root
      rw [← same, wf.next_free] at read
      cases read
    simp [held, freshEntry, counted.freed _ wf.next_free, root]
  have each : ∀ x e, (h.link p name).entries x = some e →
      (x = h.nextRef ∧ held h x e + 1 = e.refCount) ∨ ∃ e₀, h.entries x = some e₀ ∧ held h x e₀ + e.refCount =
        held h x e + e₀.refCount := by
    intro x e read
    rcases link_read wf readParent read with ⟨rfl, rfl⟩ | ⟨rfl, rfl⟩ | ⟨-, old⟩
    · exact .inr ⟨pe, readParent, by rw [parent]; dsimp only; omega⟩
    · exact .inl ⟨rfl, by rw [fresh]; rfl⟩
    · exact .inr ⟨e, old, rfl⟩
  have held_link : held (h.link p name) = held h := rfl
  refine ⟨⟨fun x e read => ?_, fun x gone => ?_⟩, fun e read => ?_, fun x spare e read => ?_⟩
  · rw [held_link]
    rcases each x e read with ⟨-, counts⟩ | ⟨e₀, old, counts⟩
    · omega
    · have := counted.covers x e₀ old
      omega
  · rw [link_entries wf readParent] at gone
    split_ifs at gone
    exact counted.freed x gone
  · rw [held_link]
    rcases each _ e read with ⟨-, counts⟩ | ⟨e₀, old, -⟩
    · omega
    · rw [wf.next_free] at old
      cases old
  · rw [held_link]
    rcases each x e read with ⟨rfl, counts⟩ | ⟨e₀, old, counts⟩
    · omega
    · have := spare e₀ old
      omega

theorem Counted.unlink (wf : WellFormed lim h) {r p : Nat} {e : Entry} (read : h.entries r = some e)
    (up : e.parentPtr = some p) (counted : Counted h) (untallied : h.snapshotRefs r = 0) :
    Counted (h.unlink p r) ∧ Spare (h.unlink p r) p := by
  have below := wf.parent_lt read up
  obtain ⟨q, pe, same, -, readParent, member⟩ := wf.parent r e read (by unfold rootPtr; omega)
  rw [up] at same
  cases same
  have distinct : p ≠ r := Nat.ne_of_lt below
  have erased : held h p { pe with childList := pe.childList.erase r } + 1 = held h p pe := by
    simp only [held, List.length_erase_of_mem member]
    have := List.length_pos_of_mem member
    omega
  have parent := counted.covers p pe readParent
  have held_unlink : held (h.unlink p r) = held h := rfl
  refine ⟨⟨fun x e' read' => ?_, fun x gone => ?_⟩, fun e' read' => ?_⟩
  · rw [held_unlink]
    rcases unlink_read readParent distinct read' with ⟨rfl, rfl⟩ | ⟨-, -, old⟩
    · dsimp only
      omega
    · exact counted.covers x e' old
  · rw [unlink_entries readParent distinct] at gone
    split_ifs at gone with xr
    · subst xr
      exact untallied
    · exact counted.freed x gone
  · rw [held_unlink]
    rcases unlink_read readParent distinct read' with ⟨-, rfl⟩ | ⟨-, notParent, -⟩
    · dsimp only
      omega
    · exact absurd rfl notParent

/-- le_mem_Release, with EntryDestructor, of an entry holding a reference to spare: it returns,
and the counts stay covered. At the last reference the entry is owed none, so it is a namespace
with no child, is not the root and holds nothing of the snapshotter's; its parent, unlinked from
it, holds the reference the destructor releases next. No entry of an announced type is freed. -/
theorem releaseFuel_counted : ∀ (fuel r : Nat) {h : Hub}, WellFormed lim h → Counted h → Spare h r →
    ∃ h', (releaseFuel fuel r).run h = .ok ((), h') ∧ Counted h' ∧ ∀ x, ResourceStays h h' x
  | 0, _, h, _, counted, _ => ⟨h, rfl, counted, fun _ _ => rfl⟩
  | fuel + 1, r, h, wf, counted, spare => by
    rw [releaseFuel_succ_run]
    cases read : h.entries r with
    | none => exact ⟨h, rfl, counted, fun _ _ => rfl⟩
    | some e =>
      have owed := spare e read
      dsimp only
      by_cases single : e.refCount ≤ 1
      · have leaf : e.childList = [] := List.eq_nil_of_length_eq_zero (by simp only [held] at owed; omega)
        have untallied : h.snapshotRefs r = 0 := by simp only [held] at owed; omega
        have root : r ≠ rootPtr := fun root => by simp only [held, if_pos root] at owed; omega
        have ns : e.type = .«namespace» := by
          by_contra resource
          simp only [held, if_neg resource] at owed
          omega
        obtain ⟨p, pe, up, -, readParent, -⟩ := wf.parent r e read root
        obtain ⟨counted', spare'⟩ := counted.unlink wf read up untallied
        obtain ⟨h', released, counted'', stays⟩ := releaseFuel_counted fuel p (wf.unlink read up leaf) counted' spare'
        have freed : ∀ x, ResourceStays h (h.unlink p r) x := fun x =>
          ResourceStays.unlink readParent (Nat.ne_of_lt (wf.parent_lt read up)) (by rw [typeOf_of_read read, ns])
        rw [if_pos single, up]
        dsimp only
        rw [if_pos leaf]
        exact ⟨h', released, counted'', fun x => (freed x).trans (stays x)⟩
      · rw [if_neg single]
        refine ⟨_, rfl, counted.updateEntry fun e' read' => ?_, fun x => ResourceStays.updateEntry fun _ _ _ _ => rfl⟩
        rw [read] at read'
        cases read'
        show held h r e ≤ e.refCount - 1
        omega

theorem leMemRelease_counted {r : Nat} (wf : WellFormed lim h) (counted : Counted h) (spare : Spare h r) :
    ∃ h', (leMemRelease r).run h = .ok ((), h') ∧ Counted h' ∧ ∀ x, ResourceStays h h' x :=
  releaseFuel_counted _ r wf counted spare

end Edits

section Calls

variable {lim : Limits} {h h' : Hub}

theorem held_reshape {r : Nat} {e e' : Entry} (children : e'.childList = e.childList)
    (kind : e'.type = .«namespace» ↔ e.type = .«namespace») : held h r e' = held h r e := by
  simp only [held, children, kind]

theorem sameTally_laws : EditLaws lim fun h h' => h'.snapshotRefs = h.snapshotRefs where
  trans first second := second.trans first
  frame _ _ _ snap _ := snap
  quiet _ _ _ snap _ _ := snap
  link _ _ _ := rfl
  unlink _ _ _ := rfl
  update _ _ := rfl

theorem FreshChain.counted {h₀ : Hub} {q : Nat} {qe : Entry} (wf₀ : WellFormed lim h₀)
    (readQ : h₀.entries q = some qe) (counted₀ : Counted h₀) {last : Nat} {hc : Hub}
    (chain : FreshChain lim h₀ q last hc) :
    Counted { hc with snapshotRefs := h₀.snapshotRefs } ∧ Spare { hc with snapshotRefs := h₀.snapshotRefs } last ∧
      (∀ x, Spare h₀ x → Spare { hc with snapshotRefs := h₀.snapshotRefs } x) ∧ ∀ x, ResourceStays h₀ hc x := by
  induction chain with
  | first name _ linked _ =>
    obtain ⟨counted, fresh, kept⟩ := counted₀.link wf₀ readQ name
    exact ⟨counted.congr linked rfl, fresh.congr linked rfl, fun x spare => (kept x spare).congr linked rfl,
      fun x => (ResourceStays.link wf₀ readQ name).trans (ResourceStays.of_entries linked)⟩
  | @next h₁ _ _ name chain₁ wf₁ linked _ ih =>
    obtain ⟨counted₁, -, kept₁, stays₁⟩ := ih
    obtain ⟨⟨_, _, readLast⟩, -, -⟩ := chain₁.leaf wf₀ readQ
    have wf₁' : WellFormed lim { h₁ with snapshotRefs := h₀.snapshotRefs } := wf₁.congr rfl rfl
    obtain ⟨counted, fresh, kept⟩ := counted₁.link wf₁' readLast name
    exact ⟨counted.congr linked rfl, fresh.congr linked rfl, fun x spare => (kept x (kept₁ x spare)).congr linked rfl,
      fun x => (stays₁ x).trans ((ResourceStays.link wf₁ readLast name).trans (ResourceStays.of_entries linked))⟩

theorem resTreeGetEntry_counted {base : Nat} {path : List Char} {res : LeResult × Option Nat} (wf : WellFormed lim h)
    (positive : ∀ r e, h.entries r = some e → 0 < e.refCount) (live : h.Live base)
    (clear : zombieFree h base (pathSegments path) = true) (counted : Counted h)
    (run : (resTreeGetEntry lim base path).run h = .ok (res, h')) :
    Counted h' ∧ (∀ x, Spare h x → Spare h' x) ∧ ∀ x, ResourceStays h h' x := by
  have tally : h'.snapshotRefs = h.snapshotRefs := resTreeGetEntry_edits sameTally_laws.toPoolLaws wf live run
  obtain ⟨res', h'', run', outcome⟩ := resTreeGetEntry_cases_of_wf wf positive live clear
  obtain ⟨-, rfl⟩ := Prod.mk.inj (Except.ok.inj (run'.symm.trans run))
  rcases outcome with ⟨-, -, rfl⟩ | ⟨-, ⟨e, -, -, rfl | ⟨q, qe, readQ, chain⟩⟩ | ⟨-, restored⟩⟩
  · exact ⟨counted, fun _ => id, fun _ _ => rfl⟩
  · exact ⟨counted, fun _ => id, fun _ _ => rfl⟩
  · obtain ⟨counted', -, kept, stays⟩ := chain.counted wf readQ counted
    exact ⟨counted'.congr rfl tally, fun x spare => (kept x spare).congr rfl tally, stays⟩
  · exact ⟨counted.congr restored tally, fun x spare => spare.congr restored tally, fun _ => .of_entries restored⟩

/-- CreateEntry stops at the last name when an entry is there, zombie or not, so a GetEntry of
one name that returns LE_OK met no zombie. -/
theorem resTreeGetEntry_one_zombieFree {base : Nat} {path name : List Char} {res : LeResult × Option Nat}
    (one : pathSegments path = [name]) (run : (resTreeGetEntry lim base path).run h = .ok (res, h'))
    (ok : res.1 = .ok) : zombieFree h base [name] = true := by
  cases child : resTreeFindChildEx h base name true with
  | none => simp [zombieFree, child]
  | some c =>
    cases zombie : resTreeIsDeleted h c
    · simp [zombieFree, child, zombie]
    · unfold resTreeGetEntry at run
      split at run
      · cases run
        cases ok
      · rename_i malformed
        have valid : ValidName lim name :=
          segment_valid (by simpa using malformed) (by rw [one]; exact List.mem_singleton_self name)
        rw [run_get_bind] at run
        obtain ⟨found, h1, lookup, rest⟩ := run_bind_eq_ok run
        obtain ⟨lookup, rfl⟩ := run_liftM_eq_ok lookup
        simp only [findEntry, one, findEntryLoop, checkEntryName_valid valid, child, zombie, if_true] at lookup
        cases lookup
        obtain ⟨created, h2, creating, -⟩ := run_bind_eq_ok rest
        rw [createEntry, one] at creating
        rcases (createEntryLoop_cons_inv creating).2 with ⟨-, -, -, more, -⟩ | ⟨-, -, -, -, more, -⟩ |
          ⟨-, -, missing, -⟩ | ⟨-, missing, -⟩
        · exact absurd rfl more
        · exact absurd rfl more
        · rw [child] at missing
          cases missing
        · rw [child] at missing
          cases missing

theorem resTreeGetObsNamespace_counted {obs : Nat} (wf : WellFormed lim h)
    (positive : ∀ r e, h.entries r = some e → 0 < e.refCount) (counted : Counted h)
    (run : (resTreeGetObsNamespace lim).run h = .ok (obs, h')) :
    Counted h' ∧ (∀ x, Spare h x → Spare h' x) ∧ ∀ x, ResourceStays h h' x := by
  obtain ⟨⟨res, obs?⟩, h1, getting, rest⟩ := run_bind_eq_ok run
  obtain ⟨ok, rest⟩ := run_check_bind_eq_ok rest
  split at rest <;> cases rest
  have clear : zombieFree h rootPtr (pathSegments obsName) = true :=
    resTreeGetEntry_one_zombieFree (show pathSegments obsName = ["obs".toList] from rfl) getting (by simpa using ok)
  exact resTreeGetEntry_counted wf positive wf.root_live clear counted getting

theorem createPlaceholderForNamespace_counted {base entry : Nat} {path : List Char} {ret : LeResult}
    (wf : WellFormed lim h) (positive : ∀ r e, h.entries r = some e → 0 < e.refCount) (counted : Counted h)
    (spare : Spare h entry) (run : (createPlaceholderForNamespace lim base path entry).run h = .ok (ret, h')) :
    Counted h' ∧ (ret ≠ .ok → ∀ x, Spare h x → Spare h' x) ∧ ∀ x, ResourceStays h h' x := by
  unfold createPlaceholderForNamespace at run
  rw [run_get_bind] at run
  obtain ⟨ns, run⟩ := run_check_bind_eq_ok run
  obtain ⟨obs, h1, gotObs, run⟩ := run_bind_eq_ok run
  obtain ⟨counted1, kept1, stays1⟩ := resTreeGetObsNamespace_counted wf positive counted gotObs
  obtain ⟨res?, h2, placing, rest⟩ := run_bind_eq_ok run
  rw [resCreatePlaceholder_run] at placing
  have same : h2.entries = h1.entries ∧ h2.snapshotRefs = h1.snapshotRefs := by
    split at placing <;> cases placing <;> exact ⟨rfl, rfl⟩
  have counted2 := counted1.congr same.1 same.2
  have stays2 : ∀ x, ResourceStays h h2 x := fun x => (stays1 x).trans (.of_entries same.1)
  split at rest
  · simp only [StateT.run_bind, run_updateEntry, except_bind_ok, run_pure] at rest
    cases rest
    refine ⟨counted2.updateEntry fun e read => ?_, fun notOk => absurd rfl notOk, fun x => ?_⟩
    · have owed := (kept1 entry spare).congr same.1 same.2 e read
      simp only [held] at owed ⊢
      split_ifs at owed ⊢ <;> omega
    · by_cases target : x = entry
      · subst target
        exact .of_neither (by rw [beq_iff_eq.mp ns]; decide)
          (unannounced_updateEntry fun _ => show ¬EntryType.placeholder.Announced by decide)
      · exact (stays2 x).trans (ResourceStays.updateEntry fun same => absurd same target)
  · cases rest
    exact ⟨counted2, fun _ x spare => (kept1 x spare).congr same.1 same.2, stays2⟩

theorem promoteNamespace_counted {base : Nat} {path : List Char} {entry? : Option Nat} {ret : LeResult}
    (wf : WellFormed lim h) (positive : ∀ r e, h.entries r = some e → 0 < e.refCount) (counted : Counted h)
    (spare : ∀ e, entry? = some e → typeOf h e = .«namespace» → Spare h e)
    (run : (promoteNamespace lim base path entry?).run h = .ok (ret, h')) :
    Counted h' ∧ (ret ≠ .ok → ∀ x, Spare h x → Spare h' x) ∧ ∀ x, ResourceStays h h' x := by
  cases entry? with
  | none =>
    cases run
    exact ⟨counted, fun _ _ => id, fun _ _ => rfl⟩
  | some e =>
    simp only [promoteNamespace, run_get_bind] at run
    split at run
    · rename_i ns
      obtain ⟨placed, h1, placing, finished⟩ := run_bind_eq_ok run
      cases finished
      obtain ⟨counted1, kept, stays⟩ :=
        createPlaceholderForNamespace_counted wf positive counted (spare e rfl (by simpa using ns)) placing
      exact ⟨counted1, fun failed => kept fun same => failed (by simp [same]), stays⟩
    · cases run
      exact ⟨counted, fun _ _ => id, fun _ _ => rfl⟩

theorem findOrCreateEntry_counted {base : Nat} {path : List Char} {res : Option Nat × Bool} (wf : WellFormed lim h)
    (positive : ∀ r e, h.entries r = some e → 0 < e.refCount) (live : h.Live base)
    (wellFormed : hubIsResourcePathMalformed lim path = false) (clear : zombieFree h base (pathSegments path) = true)
    (counted : Counted h) (spare : ∀ r, findEntry lim h base path = .ok (some r) → typeOf h r = .«namespace» → Spare h r)
    (run : (findOrCreateEntry lim base path).run h = .ok (res, h')) :
    Counted h' ∧ (∀ x, Spare h x → Spare h' x) ∧ (∀ e, res.1 = some e → (res.2 = true ∨ typeOf h' e = .«namespace») →
      Spare h' e) ∧ ∀ x, ResourceStays h h' x := by
  have tally : h'.snapshotRefs = h.snapshotRefs := findOrCreateEntry_edits sameTally_laws.toPoolLaws wf live run
  obtain ⟨res', h'', run', found, chained, restored⟩ := findOrCreateEntry_returns wf positive live wellFormed clear
  obtain ⟨rfl, rfl⟩ := Prod.mk.inj (Except.ok.inj (run'.symm.trans run))
  obtain ⟨e?, created⟩ := res'
  cases e? with
  | none =>
    exact ⟨counted.congr (restored rfl) tally, fun x spare => spare.congr (restored rfl) tally, nofun,
      fun _ => .of_entries (restored rfl)⟩
  | some e =>
    cases created with
    | false =>
      obtain ⟨rfl, lookup⟩ := found e rfl
      refine ⟨counted, fun _ => id, fun e' same kind => ?_, fun _ _ => rfl⟩
      cases same
      exact spare e lookup (kind.resolve_left nofun)
    | true =>
      obtain ⟨q, qe, readQ, chain⟩ := chained e rfl
      obtain ⟨counted', spare', kept, stays⟩ := chain.counted wf readQ counted
      refine ⟨counted'.congr rfl tally, fun x spare => (kept x spare).congr rfl tally, fun e' same _ => ?_, stays⟩
      cases same
      exact spare'.congr rfl tally

theorem resTreeGetResource_counted {base : Nat} {path : List Char} {res : LeResult × Option Nat}
    (wf : WellFormed lim h) (positive : ∀ r e, h.entries r = some e → 0 < e.refCount) (live : h.Live base)
    (clear : zombieFree h base (pathSegments path) = true) (counted : Counted h)
    (spare : ∀ r, resTreeFindEntry lim h base path = .ok (some r) → typeOf h r = .«namespace» → Spare h r)
    (run : (resTreeGetResource lim base path).run h = .ok (res, h')) : Counted h' ∧ ∀ x, ResourceStays h h' x := by
  unfold resTreeGetResource at run
  split at run
  · cases run
    exact ⟨counted, fun _ _ => rfl⟩
  · rename_i malformed
    have wellFormed : hubIsResourcePathMalformed lim path = false := by simpa using malformed
    obtain ⟨⟨entry?, created⟩, h1, walked, run⟩ := run_bind_eq_ok run
    obtain ⟨ret, h2, promoted, rest⟩ := run_bind_eq_ok run
    have wf1 := findOrCreateEntry_wf wf live walked
    have positive1 := (findOrCreateEntry_edits evolves_laws.toPoolLaws wf live walked).positive positive
    obtain ⟨counted1, -, spare1, stays1⟩ := findOrCreateEntry_counted wf positive live wellFormed clear counted
      (fun r found => spare r (by rwa [resTreeFindEntry_of_wellFormed wellFormed])) walked
    obtain ⟨counted2, kept2, stays2⟩ :=
      promoteNamespace_counted wf1 positive1 counted1 (fun e same ns => spare1 e same (.inr ns)) promoted
    have stays12 : ∀ x, ResourceStays h h2 x := fun x => (stays1 x).trans (stays2 x)
    split at rest
    · cases rest
      exact ⟨counted2, stays12⟩
    · rename_i failed
      obtain ⟨⟨⟩, h3, released, finished⟩ := run_bind_eq_ok rest
      cases finished
      unfold releaseCreated at released
      split at released
      · obtain ⟨h3', release, counted3, stays3⟩ := leMemRelease_counted (promoteNamespace_wf wf1 promoted) counted2
          (kept2 (by simpa using failed) _ (spare1 _ rfl (.inl rfl)))
        rw [release] at released
        cases released
        exact ⟨counted3, fun x => (stays12 x).trans (stays3 x)⟩
      · cases released
        exact ⟨counted2, stays12⟩

theorem Counted.retype (counted : Counted h) {r : Nat} {t : EntryType} (resource : typeOf h r ≠ .«namespace»)
    (resourceType : t ≠ .«namespace») : Counted (h.updateEntry r fun x => { x with type := t }) :=
  counted.updateEntry fun e read => by
    rw [show held h r { e with type := t } = held h r e from
      held_reshape rfl (iff_of_false resourceType (by rwa [typeOf_of_read read] at resource))]
    exact counted.covers r e read

theorem Counted.retype_notify (counted : Counted h) {r : Nat} {t : EntryType} {op : ResourceOperation}
    (resource : typeOf h r ≠ .«namespace») (resourceType : t ≠ .«namespace»)
    (run : (callResourceTreeChangeHandlers lim r t op).run (h.updateEntry r fun x => { x with type := t }) =
      .ok ((), h')) : Counted h' := by
  obtain ⟨-, -, rfl⟩ := callResourceTreeChangeHandlers_frame run
  exact (counted.retype resource resourceType).congr rfl rfl

theorem resTreeCreateIo_counted {type : EntryType} (resourceType : type ≠ .«namespace») {base : Nat}
    {path : List Char} {ret : LeResult} (wf : WellFormed lim h) (positive : ∀ r e, h.entries r = some e → 0 < e.refCount)
    (live : h.Live base) (clear : zombieFree h base (pathSegments path) = true) (counted : Counted h)
    (spare : ∀ r, resTreeFindEntry lim h base path = .ok (some r) → typeOf h r = .«namespace» → Spare h r)
    (run : (resTreeCreateIo type lim base path).run h = .ok (ret, h')) : Counted h' := by
  unfold resTreeCreateIo at run
  obtain ⟨⟨ret, entry?⟩, h1, got, run⟩ := run_bind_eq_ok run
  have counted1 := (resTreeGetResource_counted wf positive live clear counted spare got).1
  dsimp only at run
  split at run
  · rw [run_get_bind] at run
    obtain ⟨placeholder, run⟩ := run_check_bind_eq_ok run
    rw [run_updateEntry_bind] at run
    obtain ⟨⟨⟩, h2, notified, finished⟩ := run_bind_eq_ok run
    cases finished
    exact counted1.retype_notify (by rw [beq_iff_eq.mp placeholder]; decide) resourceType notified
  · cases run
    exact counted1

theorem resTreeGetObservation_counted {base : Nat} {path : List Char} {res : LeResult × Written Nat}
    (wf : WellFormed lim h) (positive : ∀ r e, h.entries r = some e → 0 < e.refCount) (live : h.Live base)
    (clear : zombieFree h base (pathSegments path) = true) (counted : Counted h)
    (spare : ∀ r, resTreeFindEntry lim h base path = .ok (some r) → typeOf h r = .«namespace» → Spare h r)
    (run : (resTreeGetObservation lim base path).run h = .ok (res, h')) : Counted h' := by
  unfold resTreeGetObservation at run
  obtain ⟨⟨ret, entry?⟩, h1, got, run⟩ := run_bind_eq_ok run
  have counted1 := (resTreeGetResource_counted wf positive live clear counted spare got).1
  dsimp only at run
  split at run
  · rw [run_get_bind] at run
    split at run
    · rename_i placeholder
      rw [run_updateEntry_bind] at run
      obtain ⟨⟨⟩, h2, notified, finished⟩ := run_bind_eq_ok run
      cases finished
      exact counted1.retype_notify (by rw [beq_iff_eq.mp placeholder]; decide) (by decide) notified
    · split at run <;> cases run <;> exact counted1
  · cases run
    exact counted1

theorem Counted.keepRef (counted : Counted h) {entry : Nat} (live : h.Live entry)
    (same : h'.entries = (h.updateEntry entry fun e => { e with refCount := e.refCount + 1 }).entries)
    (snap : h'.snapshotRefs = Function.update h.snapshotRefs entry (h.snapshotRefs entry + 1)) :
    Counted h' ∧ (Spare h entry → Spare h' entry) := by
  have owed : ∀ x e, h'.entries x = some e → ∃ e₀, h.entries x = some e₀ ∧ held h x e₀ + e.refCount =
      held h' x e + e₀.refCount := by
    intro x e read
    rw [same, Hub.updateEntry_entries] at read
    split_ifs at read with xe
    · subst xe
      obtain ⟨e₀, old, rfl⟩ := Option.map_eq_some'.mp read
      refine ⟨e₀, old, ?_⟩
      simp only [held, snap, Function.update_same]
      omega
    · exact ⟨e, read, by simp only [held, snap, Function.update_noteq xe]⟩
  refine ⟨⟨fun x e read => ?_, fun x gone => ?_⟩, fun spare e read => ?_⟩
  · obtain ⟨e₀, old, counts⟩ := owed x e read
    have := counted.covers x e₀ old
    omega
  · have dead : h.entries x = none := by
      rw [same, Hub.updateEntry_entries] at gone
      split_ifs at gone with xe
      · subst xe
        exact Option.map_eq_none'.mp gone
      · exact gone
    have other : x ≠ entry := fun xe => by simp [Hub.Live, ← xe, dead] at live
    rw [snap, Function.update_noteq other]
    exact counted.freed x dead
  · obtain ⟨e₀, old, counts⟩ := owed entry e read
    have := spare e₀ old
    omega

theorem Counted.dropRef (counted : Counted h) {entry : Nat} (live : h.Live entry) (kept : 0 < h.snapshotRefs entry)
    {h' : Hub} (same : h'.entries = h.entries)
    (snap : h'.snapshotRefs = Function.update h.snapshotRefs entry (h.snapshotRefs entry - 1)) :
    Counted h' ∧ Spare h' entry := by
  have owed : ∀ x e, h'.entries x = some e → held h' x e + (if x = entry then 1 else 0) = held h x e := by
    intro x e _
    by_cases xe : x = entry
    · subst xe
      simp only [held, snap, Function.update_same, if_true]
      omega
    · simp only [held, snap, Function.update_noteq xe, if_neg xe, Nat.add_zero]
  refine ⟨⟨fun x e read => ?_, fun x gone => ?_⟩, fun e read => ?_⟩
  · have counts := owed x e read
    have := counted.covers x e (same ▸ read)
    split_ifs at counts <;> omega
  · have other : x ≠ entry := fun xe => by simp [Hub.Live, ← xe, ← same, gone] at live
    rw [snap, Function.update_noteq other]
    exact counted.freed x (same ▸ gone)
  · have counts := owed entry e read
    have := counted.covers entry e (same ▸ read)
    rw [if_pos rfl] at counts
    omega

theorem snapshotRecordNodeDeletion_counted (keep : Bool) {entry : Nat} (live : h.Live entry) (counted : Counted h)
    (spare : Spare h entry) :
    ∃ h', (snapshotRecordNodeDeletion keep entry).run h = .ok ((), h') ∧ Counted h' ∧ Spare h' entry ∧
      ∀ x, ResourceStays h h' x := by
  cases keep
  · exact ⟨_, rfl, counted.congr rfl rfl, spare.congr rfl rfl, fun _ => .of_entries rfl⟩
  · have keeping := @Counted.keepRef h { h.updateEntry entry (fun e => { e with refCount := e.refCount + 1 }) with
      snapshotRefs := Function.update h.snapshotRefs entry (h.snapshotRefs entry + 1) } counted entry live rfl rfl
    have stays : ∀ x, ResourceStays h (h.updateEntry entry fun e => { e with refCount := e.refCount + 1 }) x :=
      fun x => ResourceStays.updateEntry fun _ _ _ _ => rfl
    exact ⟨_, rfl, keeping.1.congr rfl rfl, (keeping.2 spare).congr rfl rfl, fun x => (stays x).trans (.of_entries rfl)⟩

theorem detachAndRelease_counted (keep : Bool) {entry : Nat} {e : Entry} (wf : WellFormed lim h) (counted : Counted h)
    (read : h.entries entry = some e) (resource : e.type ≠ .«namespace») :
    ∃ h', (detachAndRelease keep entry).run h = .ok ((), h') ∧ Counted h' ∧ (∀ x, x ≠ entry → ResourceStays h h' x) ∧
      ¬(typeOf h' entry).Announced := by
  have less : held h entry { e with u := .flags {}, type := .«namespace» } + 1 = held h entry e := by
    simp only [held, if_neg resource, if_true]
    omega
  have owed := counted.covers entry e read
  have counted1 : Counted (h.updateEntry entry fun e => { e with u := .flags {}, type := .«namespace» }) :=
    counted.updateEntry fun e' read' => by
      rw [read] at read'
      cases read'
      exact (by omega : held h entry { e with u := .flags {}, type := .«namespace» } ≤ e.refCount)
  have spare1 : Spare (h.updateEntry entry fun e => { e with u := .flags {}, type := .«namespace» }) entry :=
    fun e' read' => by
      simp only [Hub.updateEntry_entries, if_pos rfl, read, Option.map_some'] at read'
      cases read'
      exact Nat.lt_of_lt_of_le (by omega : held h entry { e with u := .flags {}, type := .«namespace» } < held h entry e)
        owed
  have wf1 : WellFormed lim (h.updateEntry entry fun e => { e with u := .flags {}, type := .«namespace» }) :=
    wf.updateEntry (fun _ => ⟨rfl, rfl, rfl⟩) fun x _ => detached_ok x
  have live1 : (h.updateEntry entry fun e => { e with u := .flags {}, type := .«namespace» }).Live entry := by
    simp [Hub.Live, read]
  obtain ⟨h2, recorded, counted2, spare2, stays2⟩ := snapshotRecordNodeDeletion_counted keep live1 counted1 spare1
  obtain ⟨h3, released, counted3, stays3⟩ :=
    leMemRelease_counted (snapshotRecordNodeDeletion_wf wf1 recorded) counted2 spare2
  have detached : ¬(typeOf (h.updateEntry entry fun e => { e with u := .flags {}, type := .«namespace» }) entry).Announced :=
    unannounced_updateEntry fun _ => show ¬EntryType.«namespace».Announced by decide
  refine ⟨h3, ?_, counted3, fun x other =>
    ((ResourceStays.updateEntry fun same => absurd same other).trans (stays2 x)).trans (stays3 x),
    fun announced => detached ((stays2 entry).trans (stays3 entry) (.inr announced) ▸ announced)⟩
  rw [detachAndRelease, run_updateEntry_bind, StateT.run_bind, recorded, except_bind_ok]
  exact released

theorem resTreeDeleteIo_counted (hasAdminSettings keep : Bool) {entry : Nat} {h1 : Hub} (wf : WellFormed lim h)
    (counted : Counted h) (resource : typeOf h entry = .input ∨ typeOf h entry = .output)
    (notified : (callResourceTreeChangeHandlers lim entry (typeOf h entry) .removed).run h = .ok ((), h1)) :
    ∃ h', (resTreeDeleteIo hasAdminSettings keep lim entry).run h = .ok ((), h') ∧ Counted h' ∧
      (∀ x, x ≠ entry → ResourceStays h h' x) ∧ ¬(typeOf h' entry).Announced := by
  have typed : typeOf h entry ≠ .«namespace» := by rcases resource with typed | typed <;> rw [typed] <;> exact nofun
  have live : typeOf h entry ≠ .none := by rcases resource with typed | typed <;> rw [typed] <;> exact nofun
  obtain ⟨e, read, -⟩ := entry_of_typeOf rfl live
  unfold resTreeDeleteIo
  rw [run_get_bind, StateT.run_bind, notified, except_bind_ok]
  obtain ⟨_, -, same⟩ := callResourceTreeChangeHandlers_frame notified
  have entries1 : h1.entries = h.entries := by rw [same]
  have counted1 : Counted h1 := counted.congr entries1 (by rw [same])
  cases hasAdminSettings
  · obtain ⟨h', released, counted', stays, gone⟩ := detachAndRelease_counted keep
      (callResourceTreeChangeHandlers_wf wf notified) counted1 (entries1 ▸ read) (by rwa [typeOf_of_read read] at typed)
    exact ⟨h', released, counted', fun x other => (ResourceStays.of_entries entries1).trans (stays x other), gone⟩
  · exact ⟨_, rfl, counted1.retype (by rwa [typeOf, entries1]) (by decide : EntryType.placeholder ≠ .«namespace»),
      fun x other => (ResourceStays.of_entries entries1).trans (ResourceStays.updateEntry fun same => absurd same other),
      unannounced_updateEntry fun _ => show ¬EntryType.placeholder.Announced by decide⟩

theorem resTreeDeleteObservation_counted (keep : Bool) {entry : Nat} {h1 : Hub} (wf : WellFormed lim h)
    (counted : Counted h) (observation : typeOf h entry = .observation)
    (notified : (callResourceTreeChangeHandlers lim entry .observation .removed).run h = .ok ((), h1)) :
    ∃ h', (resTreeDeleteObservation keep lim entry).run h = .ok ((), h') ∧ Counted h' ∧
      (∀ x, x ≠ entry → ResourceStays h h' x) ∧ ¬(typeOf h' entry).Announced := by
  obtain ⟨e, read, typed⟩ := entry_of_typeOf observation nofun
  unfold resTreeDeleteObservation
  rw [StateT.run_bind, notified, except_bind_ok]
  obtain ⟨_, -, same⟩ := callResourceTreeChangeHandlers_frame notified
  have entries1 : h1.entries = h.entries := by rw [same]
  obtain ⟨h', released, counted', stays, gone⟩ := detachAndRelease_counted keep (callResourceTreeChangeHandlers_wf wf notified)
    (counted.congr entries1 (by rw [same])) (entries1 ▸ read) (by rw [typed]; exact nofun)
  exact ⟨h', released, counted', fun x other => (ResourceStays.of_entries entries1).trans (stays x other), gone⟩

theorem snapshotRelease_counted {entry : Nat} (wf : WellFormed lim h) (counted : Counted h) (live : h.Live entry)
    (kept : 0 < h.snapshotRefs entry) :
    ∃ h', (snapshotRelease entry).run h = .ok ((), h') ∧ Counted h' ∧ ∀ x, ResourceStays h h' x := by
  obtain ⟨counted1, spare1⟩ := @Counted.dropRef h counted entry live kept
    { h with snapshotRefs := Function.update h.snapshotRefs entry (h.snapshotRefs entry - 1) } rfl rfl
  have wf1 : WellFormed lim { h with snapshotRefs := Function.update h.snapshotRefs entry (h.snapshotRefs entry - 1) } :=
    wf.congr rfl rfl
  obtain ⟨h', released, counted', stays⟩ := leMemRelease_counted wf1 counted1 spare1
  exact ⟨h', by rw [snapshotRelease, StateT.run_bind, run_modify, except_bind_ok]; exact released, counted',
    fun x => (ResourceStays.of_entries rfl).trans (stays x)⟩

theorem onNamespace_counted {entry : Nat} {f : Flags → Flags} (counted : Counted h)
    (run : (onNamespace entry f).run h = .ok ((), h')) : Counted h' ∧ ∀ x, ResourceStays h h' x := by
  simp only [onNamespace, run_get_bind] at run
  split at run
  · cases run
    exact ⟨counted.updateEntry fun e read => counted.covers entry e read, fun _ => .updateEntry fun _ _ _ _ => rfl⟩
  · cases run
    exact ⟨counted, fun _ _ => rfl⟩

theorem resTreeSetDeleted_counted {entry : Nat} (counted : Counted h) (run : (resTreeSetDeleted entry).run h = .ok ((), h')) :
    Counted h' ∧ ∀ x, ResourceStays h h' x := by
  simp only [resTreeSetDeleted, run_get_bind] at run
  obtain ⟨-, run⟩ := run_check_bind_eq_ok run
  obtain ⟨-, run⟩ := run_check_bind_eq_ok run
  cases run
  exact ⟨counted.updateEntry fun e read => counted.covers entry e read, fun _ => .updateEntry fun _ _ _ _ => rfl⟩

end Calls

section Runs

variable {lim : Limits} {h h' : Hub}

/-- The calls along which the counts stay covered: a walk that meets no zombie, and a call that
may attach a resource finds at its path a namespace only if it has a reference to spare. -/
def Op.KeepsCounts (lim : Limits) (h : Hub) : Op → Prop
  | .getEntry base path => zombieFree h base (pathSegments path) = true
  | .getResource base path | .createInput base path | .createOutput base path
  | .getObservation base path => zombieFree h base (pathSegments path) = true ∧
      ∀ r, resTreeFindEntry lim h base path = .ok (some r) → typeOf h r = .«namespace» → Spare h r
  | _ => True

theorem Op.KeepsCounts.allocs {op : Op} (plan : List Bool) (keeps : op.KeepsCounts lim h) :
    op.KeepsCounts lim { h with allocs := plan } := by
  cases op <;> simp only [Op.KeepsCounts, zombieFree_allocs, resTreeFindEntry_allocs] at keeps ⊢ <;> exact keeps

theorem holds_of_returns {x : HubM Unit} {P : Hub → Prop} (returns : ∃ h'', x.run h = .ok ((), h'') ∧ P h'')
    (run : x.run h = .ok ((), h')) : P h' := by
  obtain ⟨h'', run', holds⟩ := returns
  obtain ⟨-, rfl⟩ := Prod.mk.inj (Except.ok.inj (run'.symm.trans run))
  exact holds

theorem Op.run_counted {op : Op} (wf : WellFormed lim h) (positive : ∀ r e, h.entries r = some e → 0 < e.refCount)
    (allowed : op.Allowed h) (keeps : op.KeepsCounts lim h) (counted : Counted h)
    (run : (op.run lim).run h = .ok ((), h')) : Counted h' := by
  cases op with
  | getEntry base path =>
    obtain ⟨_, run⟩ := run_discard_eq_ok run
    exact (resTreeGetEntry_counted wf positive allowed keeps counted run).1
  | getResource base path =>
    obtain ⟨_, run⟩ := run_discard_eq_ok run
    exact (resTreeGetResource_counted wf positive allowed keeps.1 counted keeps.2 run).1
  | createInput base path =>
    obtain ⟨_, run⟩ := run_discard_eq_ok run
    exact resTreeCreateIo_counted (by decide) wf positive allowed keeps.1 counted keeps.2 run
  | createOutput base path =>
    obtain ⟨_, run⟩ := run_discard_eq_ok run
    exact resTreeCreateIo_counted (by decide) wf positive allowed keeps.1 counted keeps.2 run
  | getObservation base path =>
    obtain ⟨_, run⟩ := run_discard_eq_ok run
    exact resTreeGetObservation_counted wf positive allowed keeps.1 counted keeps.2 run
  | deleteIo entry hasAdminSettings keep =>
    have deleting : (resTreeDeleteIo hasAdminSettings keep lim entry).run h = .ok ((), h') := run
    unfold resTreeDeleteIo at deleting
    rw [run_get_bind] at deleting
    obtain ⟨⟨⟩, h1, notified, -⟩ := run_bind_eq_ok deleting
    exact (holds_of_returns (resTreeDeleteIo_counted hasAdminSettings keep wf counted allowed notified) run).1
  | deleteObservation entry keep =>
    obtain ⟨⟨⟩, h1, notified, -⟩ := run_bind_eq_ok (run : (resTreeDeleteObservation keep lim entry).run h = _)
    exact (holds_of_returns (resTreeDeleteObservation_counted keep wf counted allowed notified) run).1
  | setDeleted entry => exact (resTreeSetDeleted_counted counted run).1
  | setRelevance entry relevant => exact (onNamespace_counted counted run).1
  | setClearNewnessFlag entry => exact (onNamespace_counted counted run).1
  | clearNewness entry => exact (onNamespace_counted counted run).1
  | snapshotRelease entry => exact (holds_of_returns (snapshotRelease_counted wf counted allowed.1 allowed.2) run).1

theorem Op.Step.counted {op : Op} {plan : List Bool} (reach : Reachable lim h) (keeps : op.KeepsCounts lim h)
    (counted : Counted h) (step : op.Step lim plan h h') : Counted h' :=
  have wf0 : WellFormed lim { h with allocs := plan } := (reachable_wf reach).congr rfl rfl
  have positive0 : ∀ r e, ({ h with allocs := plan } : Hub).entries r = some e → 0 < e.refCount :=
    fun r e read => reachable_counted reach r e read
  Op.run_counted wf0 positive0 step.1 (keeps.allocs plan) (counted.congr rfl rfl) step.2

theorem initialHub_counted : Counted initialHub where
  covers r e read := by
    rw [initialHub_entries] at read
    split_ifs at read with root
    cases read
    subst root
    decide
  freed _ _ := rfl

def CountedStep (lim : Limits) (h h' : Hub) : Prop :=
  ∃ op plan, op.KeepsCounts lim h ∧ Op.Step lim op plan h h'

theorem afterCall_countedStep {op : Op} {plan : List Bool} (keeps : op.KeepsCounts lim h)
    (ok : (runCalls lim [(op, plan)] h).isSome = true) : CountedStep lim h (afterCall lim op plan h) :=
  ⟨op, plan, keeps, afterCall_step ok⟩

theorem countedRun_counted (run : Relation.ReflTransGen (CountedStep lim) initialHub h) :
    Reachable lim h ∧ Counted h := by
  induction run with
  | refl => exact ⟨.init, initialHub_counted⟩
  | tail _ step ih =>
    obtain ⟨op, plan, keeps, step⟩ := step
    exact ⟨.step op plan ih.1 step, step.counted ih.1 keeps ih.2⟩

/-- Over every run from resTree_Init whose calls walk past no zombie and attach a resource only
to a namespace with a reference to spare, with any allocation failures: every live entry's
count covers one reference per child, one for an attached resource, one per reference the
snapshotter keeps on it and, for the root, its own; the snapshotter keeps no reference on a freed
block; and resTree_DeleteIO, resTree_DeleteObservation and the snapshotter's release of a
reference it keeps return without reaching EntryDestructor's assertions. -/
theorem runs_keep_counts_covered (room : 0 < lim.resourcePathBytes)
    (run : Relation.ReflTransGen (CountedStep lim) initialHub h) :
    Reachable lim h ∧ Counted h ∧
      (∀ entry hasAdminSettings keep plan, typeOf h entry = .input ∨ typeOf h entry = .output →
        ∃ h', (resTreeDeleteIo hasAdminSettings keep lim entry).run { h with allocs := plan } = .ok ((), h')) ∧
      (∀ entry keep plan, typeOf h entry = .observation →
        ∃ h', (resTreeDeleteObservation keep lim entry).run { h with allocs := plan } = .ok ((), h')) ∧
      ∀ entry plan, h.Live entry → 0 < h.snapshotRefs entry →
        ∃ h', (snapshotRelease entry).run { h with allocs := plan } = .ok ((), h') := by
  obtain ⟨reach, counted⟩ := countedRun_counted run
  have wf0 : ∀ plan, WellFormed lim { h with allocs := plan } := fun _ => (reachable_wf reach).congr rfl rfl
  refine ⟨reach, counted, fun entry hasAdminSettings keep plan resource => ?_, fun entry keep plan observation => ?_,
    fun entry plan live kept => ?_⟩
  · obtain ⟨h1, notified⟩ :=
      callResourceTreeChangeHandlers_returns room entry (typeOf h entry) .removed { h with allocs := plan }
    obtain ⟨h', deleted, -, -⟩ :=
      resTreeDeleteIo_counted hasAdminSettings keep (wf0 plan) (counted.congr rfl rfl) resource notified
    exact ⟨h', deleted⟩
  · obtain ⟨h1, notified⟩ := callResourceTreeChangeHandlers_returns room entry .observation .removed { h with allocs := plan }
    obtain ⟨h', deleted, -, -⟩ :=
      resTreeDeleteObservation_counted keep (wf0 plan) (counted.congr rfl rfl) observation notified
    exact ⟨h', deleted⟩
  · obtain ⟨h', released, -, -⟩ := snapshotRelease_counted (wf0 plan) (counted.congr rfl rfl) live kept
    exact ⟨h', released⟩

def hubPlacedA : Hub := afterCall smallLimits (.getResource rootPtr "a".toList) [] initialHub

def hubInputA : Hub := afterCall smallLimits (.createInput rootPtr "a".toList) [] hubPlacedA

/-- "a" made by GetEntry, a namespace holding only the reference of its allocation; below, it is
promoted to an Input with that reference to spare, deleted with the snapshotter keeping a
reference on the namespace left, and freed when that reference is dropped. -/
def hubEntryA : Hub := afterCall smallLimits (.getEntry rootPtr "a".toList) [] initialHub

def hubPromotedA : Hub := afterCall smallLimits (.createInput rootPtr "a".toList) [] hubEntryA

def hubRecordedA : Hub := afterCall smallLimits (.deleteIo 1 false true) [] hubPromotedA

def hubDroppedA : Hub := afterCall smallLimits (.snapshotRelease 1) [] hubRecordedA

theorem countedStep_placedA : CountedStep smallLimits initialHub hubPlacedA :=
  have absent : resTreeFindEntry smallLimits initialHub rootPtr "a".toList = .ok none := rfl
  afterCall_countedStep ⟨rfl, fun r found => by rw [absent] at found; cases found⟩ rfl

theorem countedStep_inputA : CountedStep smallLimits hubPlacedA hubInputA :=
  have placed : resTreeFindEntry smallLimits hubPlacedA rootPtr "a".toList = .ok (some 1) := rfl
  have placeholder : typeOf hubPlacedA 1 = .placeholder := rfl
  afterCall_countedStep ⟨rfl, fun r found ns => by rw [placed] at found; cases found; rw [placeholder] at ns; cases ns⟩ rfl

theorem countedRun_inputA : Relation.ReflTransGen (CountedStep smallLimits) initialHub hubInputA :=
  (Relation.ReflTransGen.single countedStep_placedA).tail countedStep_inputA

theorem runs_keep_counts_covered_through_deletion : 0 < smallLimits.resourcePathBytes ∧
    Relation.ReflTransGen (CountedStep smallLimits) initialHub hubDroppedA ∧
    Reachable smallLimits hubDroppedA ∧ Counted hubDroppedA ∧
      (∀ entry hasAdminSettings keep plan, typeOf hubDroppedA entry = .input ∨ typeOf hubDroppedA entry = .output →
        ∃ h', (resTreeDeleteIo hasAdminSettings keep smallLimits entry).run { hubDroppedA with allocs := plan } =
          .ok ((), h')) ∧
      (∀ entry keep plan, typeOf hubDroppedA entry = .observation →
        ∃ h', (resTreeDeleteObservation keep smallLimits entry).run { hubDroppedA with allocs := plan } =
          .ok ((), h')) ∧
      ∀ entry plan, hubDroppedA.Live entry → 0 < hubDroppedA.snapshotRefs entry →
        ∃ h', (snapshotRelease entry).run { hubDroppedA with allocs := plan } = .ok ((), h') :=
  have found : resTreeFindEntry smallLimits hubEntryA rootPtr "a".toList = .ok (some 1) := rfl
  have spare : Spare hubEntryA 1 := fun e read => by
    have covered : (hubEntryA.entries 1).map (fun e => decide (held hubEntryA 1 e < e.refCount)) = some true := by
      decide
    rw [read] at covered
    simpa using covered
  have first : CountedStep smallLimits initialHub hubEntryA := afterCall_countedStep rfl rfl
  have second : CountedStep smallLimits hubEntryA hubPromotedA :=
    afterCall_countedStep ⟨rfl, fun r got _ => by rw [found] at got; cases got; exact spare⟩ rfl
  have third : CountedStep smallLimits hubPromotedA hubRecordedA := afterCall_countedStep trivial rfl
  have fourth : CountedStep smallLimits hubRecordedA hubDroppedA := afterCall_countedStep trivial rfl
  have run : Relation.ReflTransGen (CountedStep smallLimits) initialHub hubDroppedA :=
    (((Relation.ReflTransGen.single first).tail second).tail third).tail fourth
  ⟨by decide, run, runs_keep_counts_covered (by decide) run⟩

end Runs

end DataHub
