import DataHub.Reachable

/-!
Lookup against creation. A child list never holds two entries of one name, so
resTree_FindChildEx finds whichever child carries the name. A successful call only links
fresh entries, resurrects zombies, converts types and counts references: every entry stays
with its parent, name and children, and none becomes a zombie. So the walk CreateEntry made is
the walk FindEntry makes afterwards, and a second GetEntry, GetResource or GetObservation finds
the entry and changes nothing.
-/

namespace DataHub

/-- `c` is a child of `p` named `name` that is not marked deleted. -/
def ChildNamed (h : Hub) (p c : Nat) (name : List Char) : Prop :=
  ∃ pe, h.entries p = some pe ∧ c ∈ pe.childList ∧ nameOf h c = some name ∧ resTreeIsDeleted h c = false

/-- `h'` keeps every entry of `h` with its parent, name and children, and marks no new
zombie. -/
structure Grows (h h' : Hub) : Prop where
  keep : ∀ x e, h.entries x = some e → ∃ e', h'.entries x = some e' ∧ e'.parentPtr = e.parentPtr ∧
    e'.name = e.name ∧ e.childList ⊆ e'.childList
  alive : ∀ x, resTreeIsDeleted h x = false → resTreeIsDeleted h' x = false

section Grows

variable {lim : Limits} {h h' h'' : Hub}

theorem Grows.refl (h : Hub) : Grows h h :=
  ⟨fun _ e read => ⟨e, read, rfl, rfl, fun _ => id⟩, fun _ => id⟩

theorem Grows.trans (first : Grows h h') (second : Grows h' h'') : Grows h h'' where
  keep x e read := by
    obtain ⟨e', read', up, name, children⟩ := first.keep x e read
    obtain ⟨e'', read'', up', name', children'⟩ := second.keep x e' read'
    exact ⟨e'', read'', up'.trans up, name'.trans name, fun c member => children' (children member)⟩
  alive x live := second.alive x (first.alive x live)

theorem Grows.of_entries (same : h'.entries = h.entries) : Grows h h' where
  keep x e read := ⟨e, same ▸ read, rfl, rfl, fun _ => id⟩
  alive x := by simp only [resTreeIsDeleted, same]; exact id

theorem Grows.nameOf_eq (grows : Grows h h') {x : Nat} {name : List Char} (named : nameOf h x = some name) :
    nameOf h' x = some name := by
  obtain ⟨e, read, rfl⟩ := Option.map_eq_some'.mp named
  obtain ⟨e', read', -, same, -⟩ := grows.keep x e read
  simp [nameOf, read', same]

theorem Grows.childNamed (grows : Grows h h') {p c : Nat} {name : List Char} (child : ChildNamed h p c name) :
    ChildNamed h' p c name := by
  obtain ⟨pe, read, member, named, live⟩ := child
  obtain ⟨pe', read', -, -, children⟩ := grows.keep p pe read
  exact ⟨pe', read', children member, grows.nameOf_eq named, grows.alive c live⟩

theorem Grows.updateEntry {r : Nat} {f : Entry → Entry}
    (keep : ∀ e, (f e).parentPtr = e.parentPtr ∧ (f e).name = e.name ∧ (f e).childList = e.childList)
    (alive : ∀ e, ((f e).type == .«namespace» && (f e).flags.deleted) = true →
      (e.type == .«namespace» && e.flags.deleted) = true) :
    Grows h (h.updateEntry r f) where
  keep x e read := by
    by_cases xr : x = r
    · subst xr
      obtain ⟨up, name, children⟩ := keep e
      exact ⟨f e, by simp [read], up, name, children ▸ fun _ => id⟩
    · exact ⟨e, by simp [xr, read], rfl, rfl, fun _ => id⟩
  alive x live := by
    by_cases xr : x = r
    · subst xr
      cases read : h.entries x with
      | none => simp [resTreeIsDeleted, read]
      | some e =>
        simp only [resTreeIsDeleted, read] at live
        simp only [resTreeIsDeleted, Hub.updateEntry_entries, if_pos, read, Option.map_some']
        exact Bool.eq_false_iff.mpr fun deleted => by simp [alive e deleted] at live
    · simpa [resTreeIsDeleted, xr] using live

theorem Grows.link (wf : WellFormed lim h) {p : Nat} {pe : Entry} (readParent : h.entries p = some pe)
    (name : List Char) : Grows h (h.link p name) where
  keep x e read := by
    have fresh : x ≠ h.nextRef := Nat.ne_of_lt (wf.below_next x e read)
    rw [link_entries wf readParent]
    by_cases xp : x = p
    · subst xp
      rw [readParent] at read
      cases read
      exact ⟨_, if_pos rfl, rfl, rfl, fun c member => List.mem_append_left _ member⟩
    · exact ⟨e, by rw [if_neg xp, if_neg fresh, read], rfl, rfl, fun _ => id⟩
  alive x live := by
    simp only [resTreeIsDeleted, link_entries wf readParent] at live ⊢
    split_ifs with xp xn
    · subst xp
      simpa [readParent] using live
    · simp [freshEntry, Entry.flags]
    · exact live

end Grows

section Find

variable {lim : Limits} {h h' : Hub}

theorem WellFormed.findChildEx_member (wf : WellFormed lim h) {p c : Nat} {pe : Entry} {name : List Char}
    (read : h.entries p = some pe) (member : c ∈ pe.childList) (named : nameOf h c = some name) :
    resTreeFindChildEx h p name true = some c := by
  cases found : resTreeFindChildEx h p name true with
  | none => exact absurd named (findChildEx_none found read c member)
  | some c' =>
    obtain ⟨pe', read', member', named', -⟩ := findChildEx_some found
    rw [read] at read'
    cases read'
    exact congrArg some (List.inj_on_of_nodup_map (wf.names p pe read) member' member (named'.trans named.symm))

theorem ChildNamed.live {p c : Nat} {name : List Char} (child : ChildNamed h p c name) : h.Live c := by
  obtain ⟨-, -, -, named, -⟩ := child
  obtain ⟨e, read, -⟩ := Option.map_eq_some'.mp named
  simp [Hub.Live, read]

theorem findEntryLoop_cons_of_child (wf : WellFormed lim h) {cur c : Nat} {name : List Char}
    (checked : checkEntryName lim name = .ok ()) (child : ChildNamed h cur c name) (rest : List (List Char)) :
    findEntryLoop lim h cur (name :: rest) = findEntryLoop lim h c rest := by
  obtain ⟨pe, read, member, named, live⟩ := child
  simp [findEntryLoop, checked, wf.findChildEx_member read member named, live]

theorem findEntryLoop_child {cur e : Nat} {name : List Char} {rest : List (List Char)}
    (found : findEntryLoop lim h cur (name :: rest) = .ok (some e)) :
    ∃ c, checkEntryName lim name = .ok () ∧ resTreeFindChildEx h cur name true = some c ∧
      ChildNamed h cur c name ∧ findEntryLoop lim h c rest = .ok (some e) := by
  simp only [findEntryLoop] at found
  cases checked : checkEntryName lim name with
  | error site => rw [checked] at found; cases found
  | ok u =>
    rw [checked, except_bind_ok] at found
    split at found
    · rename_i c lookup
      obtain ⟨pe, read, member, named, -⟩ := findChildEx_some lookup
      split at found
      · cases found
      · rename_i live
        exact ⟨c, rfl, lookup, ⟨pe, read, member, named, Bool.eq_false_iff.mpr live⟩, found⟩
    · cases found

theorem Grows.findEntryLoop (grows : Grows h h') (wf' : WellFormed lim h') {e : Nat} :
    ∀ (names : List (List Char)) (cur : Nat), findEntryLoop lim h cur names = .ok (some e) →
      findEntryLoop lim h' cur names = .ok (some e)
  | [], _, found => found
  | _ :: rest, _, found => by
    obtain ⟨c, checked, -, child, next⟩ := findEntryLoop_child found
    rw [findEntryLoop_cons_of_child wf' checked (grows.childNamed child)]
    exact grows.findEntryLoop wf' rest c next

end Find

section Create

variable {lim : Limits} {h h' : Hub}

theorem addChild_none_child {p c : Nat} {pe : Entry} {name : List Char} (wf : WellFormed lim h)
    (readParent : h.entries p = some pe) (run : (addChild lim (some p) name none).run h = .ok (some c, h')) :
    Grows h h' ∧ ChildNamed h' p c name := by
  have wf0 : WellFormed lim { h with allocs := h.allocs.tail } := wf.congr rfl rfl
  have spent : Grows h { h with allocs := h.allocs.tail } := Grows.of_entries rfl
  rw [addChild_none_run] at run
  split at run
  · rw [linkNewChild_run] at run
    split_ifs at run
    cases run
    refine ⟨spent.trans (Grows.link wf0 readParent name),
      { pe with childList := pe.childList ++ [h.nextRef], refCount := pe.refCount + 1 }, ?_, ?_, ?_, ?_⟩
    · rw [link_entries wf0 readParent, if_pos rfl]
    · exact List.mem_append_right _ (List.mem_singleton_self _)
    · rw [nameOf_link wf0 readParent, if_pos rfl]
    · have fresh : h.nextRef ≠ p := fun same => by simp [same ▸ wf.next_free] at readParent
      simp [resTreeIsDeleted, link_entries wf0 readParent, fresh, freshEntry, Entry.flags]
  · cases run

theorem addChild_some_child {p c : Nat} {name : List Char} {r? : Option Nat} (child : c ∈ (h.entries p).elim [] (·.childList))
    (named : nameOf h c = some name) (run : (addChild lim (some p) name (some c)).run h = .ok (r?, h')) :
    r? = some c ∧ Grows h h' ∧ ChildNamed h' p c name := by
  rw [addChild_some_run] at run
  dsimp only at run
  split_ifs at run
  cases run
  have grows : Grows h (h.updateEntry c fun e => { e with u := .flags { new := true } }) :=
    Grows.updateEntry (fun _ => ⟨rfl, rfl, rfl⟩) fun _ deleted => by simp [Entry.flags] at deleted
  refine ⟨rfl, grows, ?_⟩
  cases read : h.entries p with
  | none => simp [read] at child
  | some pe =>
    simp only [read, Option.elim] at child
    obtain ⟨pe', read', -, -, children⟩ := grows.keep p pe read
    obtain ⟨e, readChild, -⟩ := Option.map_eq_some'.mp named
    exact ⟨pe', read', children child, grows.nameOf_eq named, by simp [resTreeIsDeleted, readChild, Entry.flags]⟩

theorem createEntryLoop_found : ∀ (names : List (List Char)) (current : Nat) (firstNew : Option Nat)
    {h h' : Hub} {e : Nat}, WellFormed lim h → h.Live current → (∀ name ∈ names, '/' ∉ name) →
    (createEntryLoop lim current firstNew names).run h = .ok (some e, h') →
    Grows h h' ∧ findEntryLoop lim h' current names = .ok (some e)
  | [], _, _, h, _, _, _, _, _, run => by cases run; exact ⟨Grows.refl h, rfl⟩
  | name :: rest, current, firstNew, h, h', e, wf, live, slash, run => by
    have wf' := createEntryLoop_wf _ _ _ wf live slash run
    obtain ⟨pe, readParent⟩ := Option.isSome_iff_exists.mp live
    have slashRest : ∀ n ∈ rest, '/' ∉ n := fun n member => slash n (by simp [member])
    obtain ⟨checked, step⟩ := createEntryLoop_cons_inv run
    have valid := checkEntryName_ok_valid checked (slash name (by simp))
    have finish : ∀ {c : Nat} {first : Option Nat} {h2 : Hub}, WellFormed lim h2 → Grows h h2 →
        ChildNamed h2 current c name → (createEntryLoop lim c first rest).run h2 = .ok (some e, h') →
        Grows h h' ∧ findEntryLoop lim h' current (name :: rest) = .ok (some e) := by
      intro c first h2 wf2 grows child next
      obtain ⟨grows', found⟩ := createEntryLoop_found rest c first wf2 child.live slashRest next
      refine ⟨grows.trans grows', ?_⟩
      rw [findEntryLoop_cons_of_child wf' checked (grows'.childNamed child)]
      exact found
    rcases step with ⟨child, found, alive, -, next⟩ | ⟨child, h2, found, -, -, added, next⟩ |
      ⟨c, h2, -, added, next⟩ | ⟨h2, -, added, -, none⟩
    · obtain ⟨pe', read, member, named, -⟩ := findChildEx_some found
      exact finish wf (Grows.refl h) ⟨pe', read, member, named, alive⟩ next
    · obtain ⟨pe', read, member, named, -⟩ := findChildEx_some found
      obtain ⟨-, grows, child⟩ := addChild_some_child (by simp [read, member]) named added
      exact finish (addChild_some_wf wf added) grows child next
    · obtain ⟨grows, child⟩ := addChild_none_child wf readParent added
      exact finish (addChild_none_wf wf readParent valid added) grows child next
    · cases none

end Create

section Calls

variable {lim : Limits} {h h' : Hub}

theorem typeOf_updateEntry_self {r : Nat} {e : Entry} {f : Entry → Entry} (read : h.entries r = some e) :
    typeOf (h.updateEntry r f) r = (f e).type := by
  simp [typeOf, read]

theorem Grows.live (grows : Grows h h') {x : Nat} (live : h.Live x) : h'.Live x := by
  obtain ⟨e, read⟩ := Option.isSome_iff_exists.mp live
  obtain ⟨e', read', -⟩ := grows.keep x e read
  simp [Hub.Live, read']

theorem entry_of_typeOf {x : Nat} {t : EntryType} (typed : typeOf h x = t) (entry : t ≠ .none) :
    ∃ e, h.entries x = some e ∧ e.type = t := by
  cases read : h.entries x with
  | none => simp [typeOf, read] at typed; exact absurd typed.symm entry
  | some e => exact ⟨e, rfl, by simpa [typeOf, read] using typed⟩

theorem resTreeGetEntry_of_found {base e : Nat} {path : List Char}
    (wellFormed : hubIsResourcePathMalformed lim path = false) (found : findEntry lim h base path = .ok (some e)) :
    (resTreeGetEntry lim base path).run h = .ok ((.ok, some e), h) := by
  simp [resTreeGetEntry, wellFormed, found]
  rfl

theorem resTreeGetEntry_ok {base e : Nat} {path : List Char} (wf : WellFormed lim h) (live : h.Live base)
    (run : (resTreeGetEntry lim base path).run h = .ok ((.ok, some e), h')) :
    hubIsResourcePathMalformed lim path = false ∧ Grows h h' ∧ findEntry lim h' base path = .ok (some e) := by
  have wf' := resTreeGetEntry_wf wf live run
  unfold resTreeGetEntry at run
  split at run
  · cases run
  · rename_i wellFormed
    refine ⟨Bool.eq_false_iff.mpr wellFormed, ?_⟩
    rw [run_get_bind] at run
    obtain ⟨found, h1, lookup, rest⟩ := run_bind_eq_ok run
    obtain ⟨lookup, rfl⟩ := run_liftM_eq_ok lookup
    split at rest
    · cases rest
      exact ⟨Grows.refl _, lookup⟩
    · obtain ⟨created, h2, creating, rest⟩ := run_bind_eq_ok rest
      split at rest <;> cases rest
      exact createEntryLoop_found _ base none wf live (fun _ => slash_not_mem_segment) creating

theorem resTreeGetObsNamespace_grows {obs : Nat} (wf : WellFormed lim h)
    (run : (resTreeGetObsNamespace lim).run h = .ok (obs, h')) : Grows h h' := by
  obtain ⟨⟨res, obs?⟩, h1, getting, rest⟩ := run_bind_eq_ok run
  obtain ⟨ok, rest⟩ := run_check_bind_eq_ok rest
  cases obs? with
  | none => cases rest
  | some o =>
    cases rest
    rw [beq_iff_eq] at ok
    subst ok
    exact (resTreeGetEntry_ok wf wf.root_live getting).2.1

theorem createPlaceholderForNamespace_ok {base entry : Nat} {path : List Char} (wf : WellFormed lim h)
    (run : (createPlaceholderForNamespace lim base path entry).run h = .ok (.ok, h')) :
    Grows h h' ∧ typeOf h' entry = .placeholder := by
  unfold createPlaceholderForNamespace at run
  rw [run_get_bind] at run
  obtain ⟨ns, run⟩ := run_check_bind_eq_ok run
  obtain ⟨obs, h1, gotObs, run⟩ := run_bind_eq_ok run
  obtain ⟨res?, h2, placing, rest⟩ := run_bind_eq_ok run
  rw [resCreatePlaceholder_run] at placing
  have grows : Grows h h2 := by
    split at placing <;> cases placing <;>
      exact (resTreeGetObsNamespace_grows wf gotObs).trans (Grows.of_entries rfl)
  split at rest
  · simp only [StateT.run_bind, run_updateEntry, except_bind_ok, run_pure] at rest
    cases rest
    rw [beq_iff_eq] at ns
    obtain ⟨e0, read0, -⟩ := entry_of_typeOf ns (by decide)
    have live : h2.Live entry := grows.live (by simp [Hub.Live, read0])
    obtain ⟨e, read⟩ := Option.isSome_iff_exists.mp live
    refine ⟨grows.trans (Grows.updateEntry (fun _ => ⟨rfl, rfl, rfl⟩) fun _ deleted => ?_), ?_⟩
    · simp at deleted
    · rw [typeOf_updateEntry_self read]
  · cases rest

theorem promoteNamespace_ok {base e : Nat} {path : List Char} (wf : WellFormed lim h)
    (run : (promoteNamespace lim base path (some e)).run h = .ok (.ok, h')) :
    Grows h h' ∧ typeOf h' e ≠ .«namespace» := by
  simp only [promoteNamespace, run_get_bind] at run
  split at run
  · obtain ⟨placed, h1, placing, finished⟩ := run_bind_eq_ok run
    cases placed <;> cases finished
    obtain ⟨grows, placeholder⟩ := createPlaceholderForNamespace_ok wf placing
    exact ⟨grows, by simp [placeholder]⟩
  · rename_i resource
    cases run
    exact ⟨Grows.refl _, by simpa using resource⟩

theorem findOrCreateEntry_found {base e : Nat} {path : List Char} {created : Bool} (wf : WellFormed lim h)
    (live : h.Live base) (run : (findOrCreateEntry lim base path).run h = .ok ((some e, created), h')) :
    Grows h h' ∧ findEntry lim h' base path = .ok (some e) := by
  rcases findOrCreateEntry_inv run with ⟨_, found, same, -, rfl⟩ | ⟨-, creating, -⟩
  · cases same
    exact ⟨Grows.refl _, found⟩
  · exact createEntryLoop_found _ base none wf live (fun _ => slash_not_mem_segment) creating

theorem resTreeGetResource_ok {base e : Nat} {path : List Char} (wf : WellFormed lim h) (live : h.Live base)
    (run : (resTreeGetResource lim base path).run h = .ok ((.ok, some e), h')) :
    hubIsResourcePathMalformed lim path = false ∧ Grows h h' ∧ findEntry lim h' base path = .ok (some e) ∧
      typeOf h' e ≠ .«namespace» := by
  have wf' := resTreeGetResource_wf wf live run
  unfold resTreeGetResource at run
  split at run
  · cases run
  · rename_i wellFormed
    obtain ⟨⟨entry?, created⟩, h1, walked, run⟩ := run_bind_eq_ok run
    obtain ⟨ret, h2, promoted, rest⟩ := run_bind_eq_ok run
    split at rest
    · rename_i ok
      cases rest
      rw [beq_iff_eq] at ok
      subst ok
      obtain ⟨grows1, found1⟩ := findOrCreateEntry_found wf live walked
      obtain ⟨grows2, resource⟩ := promoteNamespace_ok (findOrCreateEntry_wf wf live walked) promoted
      exact ⟨Bool.eq_false_iff.mpr wellFormed, grows1.trans grows2, grows2.findEntryLoop wf' _ _ found1,
        resource⟩
    · obtain ⟨⟨⟩, h3, -, finished⟩ := run_bind_eq_ok rest
      cases finished

theorem resTreeGetResource_of_found {base e : Nat} {path : List Char}
    (wellFormed : hubIsResourcePathMalformed lim path = false) (found : findEntry lim h base path = .ok (some e))
    (resource : typeOf h e ≠ .«namespace») :
    (resTreeGetResource lim base path).run h = .ok ((.ok, some e), h) := by
  simp [resTreeGetResource, findOrCreateEntry, promoteNamespace, wellFormed, found, resource]
  rfl

theorem resTreeGetObservation_ok {base e : Nat} {path : List Char} (wf : WellFormed lim h) (live : h.Live base)
    (run : (resTreeGetObservation lim base path).run h = .ok ((.ok, .wrote e), h')) :
    hubIsResourcePathMalformed lim path = false ∧ findEntry lim h' base path = .ok (some e) ∧
      typeOf h' e = .observation := by
  have wf' := resTreeGetObservation_wf wf live run
  unfold resTreeGetObservation at run
  obtain ⟨⟨ret, entry?⟩, h1, got, run⟩ := run_bind_eq_ok run
  dsimp only at run
  split at run
  · rename_i e' _ _
    obtain ⟨wellFormed, -, found1, -⟩ := resTreeGetResource_ok wf live got
    rw [run_get_bind] at run
    split at run
    · rename_i placeholder
      rw [run_updateEntry_bind] at run
      obtain ⟨⟨⟩, h2, notified, finished⟩ := run_bind_eq_ok run
      cases finished
      obtain ⟨rendered, -, rfl⟩ := callResourceTreeChangeHandlers_frame notified
      rw [beq_iff_eq] at placeholder
      obtain ⟨x, read, -⟩ := entry_of_typeOf placeholder (by decide)
      have grows : Grows h1 (h1.updateEntry e fun x => { x with type := .observation }) :=
        Grows.updateEntry (fun _ => ⟨rfl, rfl, rfl⟩) fun _ deleted => by simp at deleted
      have notified : Grows h1 { h1.updateEntry e (fun x => { x with type := .observation }) with
          log := h1.log ++ [.treeChange rendered.text .observation .added] } :=
        grows.trans (Grows.of_entries rfl)
      refine ⟨wellFormed, notified.findEntryLoop wf' _ _ found1, ?_⟩
      exact typeOf_updateEntry_self read
    · split at run
      · cases run
      · rename_i observation
        cases run
        exact ⟨wellFormed, found1, by simpa using observation⟩
  · cases run

theorem resTreeGetObservation_of_found {base e : Nat} {path : List Char}
    (wellFormed : hubIsResourcePathMalformed lim path = false) (found : findEntry lim h base path = .ok (some e))
    (observation : typeOf h e = .observation) :
    (resTreeGetObservation lim base path).run h = .ok ((.ok, .wrote e), h) := by
  unfold resTreeGetObservation
  rw [StateT.run_bind, resTreeGetResource_of_found wellFormed found (by simp [observation])]
  simp [observation]
  rfl

end Calls

section Idempotence

variable {lim : Limits} {h : Hub} {base : Nat} {path : List Char}

/-- After a successful GetEntry, FindEntry finds its entry, and a second GetEntry, GetResource
or GetObservation after a successful one returns the same entry and changes nothing. -/
theorem get_calls_idempotent (reach : Reachable lim h) (live : h.Live base) :
    (∀ e h', (resTreeGetEntry lim base path).run h = .ok ((.ok, some e), h') →
      resTreeFindEntry lim h' base path = .ok (some e) ∧
      (resTreeGetEntry lim base path).run h' = .ok ((.ok, some e), h')) ∧
    (∀ e h', (resTreeGetResource lim base path).run h = .ok ((.ok, some e), h') →
      (resTreeGetResource lim base path).run h' = .ok ((.ok, some e), h')) ∧
    (∀ e h', (resTreeGetObservation lim base path).run h = .ok ((.ok, .wrote e), h') →
      (resTreeGetObservation lim base path).run h' = .ok ((.ok, .wrote e), h')) := by
  have wf := reachable_wf reach
  refine ⟨fun e h' run => ?_, fun e h' run => ?_, fun e h' run => ?_⟩
  · obtain ⟨wellFormed, -, found⟩ := resTreeGetEntry_ok wf live run
    exact ⟨by simp [resTreeFindEntry, wellFormed, found], resTreeGetEntry_of_found wellFormed found⟩
  · obtain ⟨wellFormed, -, found, resource⟩ := resTreeGetResource_ok wf live run
    exact resTreeGetResource_of_found wellFormed found resource
  · obtain ⟨wellFormed, found, observation⟩ := resTreeGetObservation_ok wf live run
    exact resTreeGetObservation_of_found wellFormed found observation

theorem get_calls_idempotent_on_fresh_tree : Reachable smallLimits initialHub ∧ initialHub.Live rootPtr ∧
    (∃ h', (resTreeGetEntry smallLimits rootPtr "a".toList).run initialHub = .ok ((.ok, some 1), h') ∧
      resTreeFindEntry smallLimits h' rootPtr "a".toList = .ok (some 1) ∧
      (resTreeGetEntry smallLimits rootPtr "a".toList).run h' = .ok ((.ok, some 1), h')) ∧
    (∃ h', (resTreeGetResource smallLimits rootPtr "a".toList).run initialHub = .ok ((.ok, some 1), h') ∧
      (resTreeGetResource smallLimits rootPtr "a".toList).run h' = .ok ((.ok, some 1), h')) ∧
    ∃ h', (resTreeGetObservation smallLimits rootPtr "a".toList).run initialHub = .ok ((.ok, .wrote 1), h') ∧
      (resTreeGetObservation smallLimits rootPtr "a".toList).run h' = .ok ((.ok, .wrote 1), h') :=
  have idempotent := @get_calls_idempotent smallLimits initialHub rootPtr "a".toList .init (by decide)
  have entry : ∃ h', (resTreeGetEntry smallLimits rootPtr "a".toList).run initialHub = .ok ((.ok, some 1), h') :=
    ⟨_, rfl⟩
  have resource : ∃ h', (resTreeGetResource smallLimits rootPtr "a".toList).run initialHub =
      .ok ((.ok, some 1), h') := ⟨_, rfl⟩
  have observation : ∃ h', (resTreeGetObservation smallLimits rootPtr "a".toList).run initialHub =
      .ok ((.ok, .wrote 1), h') := ⟨_, rfl⟩
  ⟨.init, by decide, entry.imp fun _ got => ⟨got, idempotent.1 _ _ got⟩,
    resource.imp fun _ got => ⟨got, idempotent.2.1 _ _ got⟩,
    observation.imp fun _ got => ⟨got, idempotent.2.2 _ _ got⟩⟩

end Idempotence

end DataHub
