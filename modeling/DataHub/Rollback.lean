import DataHub.Render

/-!
What resTree_GetResource leaves behind when it fails. A release only frees entries and drops
references and children, so the lookups of the tree after it are those of the tree before, or
stop earlier. The rollback of GetResource releases the entry at the path when the call created
it, and that entry is always a fresh leaf; so FindEntry at the path answers after a failed call
as it did before. What the failed call did off that entry stays: the namespaces its walk created
above the entry, and the /obs namespace its promotion may have created.
-/

namespace DataHub

/-- `h'` keeps only entries of `h`, each with its parent, name, type and payload, and with a
child list that lost entries at most: what releases do to the arena. -/
structure Shrinks (h h' : Hub) : Prop where
  keep : ∀ x e', h'.entries x = some e' → ∃ e, h.entries x = some e ∧ e'.parentPtr = e.parentPtr ∧
    e'.name = e.name ∧ e'.childList ⊆ e.childList ∧ e'.type = e.type ∧ e'.u = e.u

section Shrinks

variable {lim : Limits} {h h' h'' : Hub}

theorem Shrinks.refl (h : Hub) : Shrinks h h :=
  ⟨fun _ e read => ⟨e, read, rfl, rfl, fun _ => id, rfl, rfl⟩⟩

theorem Shrinks.trans (first : Shrinks h h') (second : Shrinks h' h'') : Shrinks h h'' where
  keep x e'' read'' := by
    obtain ⟨e', read', up', name', children', type', u'⟩ := second.keep x e'' read''
    obtain ⟨e, read, up, name, children, type, u⟩ := first.keep x e' read'
    exact ⟨e, read, up'.trans up, name'.trans name, fun c member => children (children' member),
      type'.trans type, u'.trans u⟩

theorem Shrinks.updateEntry {r : Nat} {f : Entry → Entry}
    (keep : ∀ e, (f e).parentPtr = e.parentPtr ∧ (f e).name = e.name ∧ (f e).childList ⊆ e.childList ∧
      (f e).type = e.type ∧ (f e).u = e.u) : Shrinks h (h.updateEntry r f) where
  keep x e' read := by
    simp only [Hub.updateEntry_entries] at read
    split_ifs at read with xr
    · subst xr
      obtain ⟨e, read0, rfl⟩ := Option.map_eq_some'.mp read
      exact ⟨e, read0, keep e⟩
    · exact ⟨e', read, rfl, rfl, fun _ => id, rfl, rfl⟩

theorem Shrinks.unlink (p r : Nat) : Shrinks h (h.unlink p r) := by
  have erased : Shrinks h (h.updateEntry p fun e => { e with childList := e.childList.erase r }) :=
    Shrinks.updateEntry fun e => ⟨rfl, rfl, List.erase_subset r e.childList, rfl, rfl⟩
  refine erased.trans ⟨fun x e' read => ?_⟩
  simp only [Hub.unlink, Hub.setEntry_entries] at read
  split_ifs at read
  exact ⟨e', read, rfl, rfl, fun _ => id, rfl, rfl⟩

theorem Shrinks.dead (shrinks : Shrinks h h') {x : Nat} (gone : h.entries x = none) : h'.entries x = none := by
  cases read : h'.entries x with
  | none => rfl
  | some e' =>
    obtain ⟨e, read0, -⟩ := shrinks.keep x e' read
    simp [gone] at read0

theorem Shrinks.isDeleted (shrinks : Shrinks h h') {x : Nat} {e' : Entry} (read' : h'.entries x = some e') :
    resTreeIsDeleted h' x = resTreeIsDeleted h x := by
  obtain ⟨e, read, -, -, -, type, u⟩ := shrinks.keep x e' read'
  simp [resTreeIsDeleted, read, read', type, Entry.flags, u]

theorem Shrinks.findChildEx (wf : WellFormed lim h) (shrinks : Shrinks h h') {p c : Nat} {name : List Char}
    (found : resTreeFindChildEx h' p name true = some c) : resTreeFindChildEx h p name true = some c := by
  obtain ⟨pe', read', member, named, -⟩ := findChildEx_some found
  obtain ⟨pe, read, -, -, children, -⟩ := shrinks.keep p pe' read'
  obtain ⟨ce', readChild', rfl⟩ := Option.map_eq_some'.mp named
  obtain ⟨ce, readChild, -, same, -⟩ := shrinks.keep c ce' readChild'
  exact wf.findChildEx_member read (children member) (by simp [nameOf, readChild, same])

theorem Shrinks.findEntryLoop (wf : WellFormed lim h) (shrinks : Shrinks h h') :
    ∀ (names : List (List Char)) (cur : Nat),
      findEntryLoop lim h' cur names = findEntryLoop lim h cur names ∨ findEntryLoop lim h' cur names = .ok none
  | [], _ => .inl rfl
  | name :: rest, cur => by
    simp only [DataHub.findEntryLoop]
    cases checked : checkEntryName lim name with
    | error site => exact .inl rfl
    | ok u =>
      simp only [except_bind_ok]
      cases found' : resTreeFindChildEx h' cur name true with
      | none => exact .inr rfl
      | some c =>
        obtain ⟨-, -, -, named, -⟩ := findChildEx_some found'
        obtain ⟨ce', read', -⟩ := Option.map_eq_some'.mp named
        simp only [shrinks.findChildEx wf found', shrinks.isDeleted read']
        split
        · exact .inl rfl
        · exact shrinks.findEntryLoop wf rest c

end Shrinks

section Release

end Release

section Create

variable {lim : Limits} {h h' : Hub}

end Create

section Failure

variable {lim : Limits} {h h' : Hub} {base : Nat} {path : List Char}

theorem findEntryLoop_allocs (plan : List Bool) :
    ∀ (names : List (List Char)) (cur : Nat),
      findEntryLoop lim { h with allocs := plan } cur names = findEntryLoop lim h cur names
  | [], _ => rfl
  | name :: rest, cur => by
    simp only [findEntryLoop, findEntryLoop_allocs plan rest]
    rfl

theorem resTreeFindEntry_of_wellFormed (wellFormed : hubIsResourcePathMalformed lim path = false) :
    resTreeFindEntry lim h base path = findEntry lim h base path := by
  simp [resTreeFindEntry, wellFormed]

theorem resTreeGetResource_of_failed_promotion {e? : Option Nat} {created : Bool} {ret : LeResult}
    {h1 h2 h3 : Hub} (wellFormed : hubIsResourcePathMalformed lim path = false)
    (walked : (findOrCreateEntry lim base path).run h = .ok ((e?, created), h1))
    (promoted : (promoteNamespace lim base path e?).run h1 = .ok (ret, h2)) (failed : ret ≠ .ok)
    (released : (releaseCreated e? created).run h2 = .ok ((), h3)) :
    (resTreeGetResource lim base path).run h = .ok ((ret, none), h3) := by
  unfold resTreeGetResource
  rw [if_neg (by simp [wellFormed]), StateT.run_bind, walked, except_bind_ok]
  dsimp only
  rw [StateT.run_bind, promoted, except_bind_ok, if_neg (by simpa using failed), StateT.run_bind, released,
    except_bind_ok]
  rfl

/-- The state a computation leaves, or the one it started from when it aborts. -/
def stateAfter {α : Type} (x : HubM α) (h : Hub) : Hub :=
  match x.run h with
  | .ok (_, h') => h'
  | .error _ => h

end Failure

end DataHub
