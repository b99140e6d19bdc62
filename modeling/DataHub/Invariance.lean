import DataHub.WellFormed

/-!
Every operation keeps the tree well formed, whatever its allocations do: each is a sequence
of shape-preserving updates, links of fresh children and unlinks of childless entries.
-/

namespace DataHub

section Basic

variable {lim : Limits} {h h' : Hub}

theorem WellFormed.congr (wf : WellFormed lim h) (entries : h'.entries = h.entries)
    (next : h'.nextRef = h.nextRef) : WellFormed lim h' :=
  wf.of_sameShape ⟨next, fun s => by rw [entries]⟩ fun s e read => wf.content s e (entries ▸ read)

theorem WellFormed.updateEntry (wf : WellFormed lim h) {r : Nat} {f : Entry → Entry}
    (keep : ∀ e, (f e).parentPtr = e.parentPtr ∧ (f e).name = e.name ∧ (f e).childList = e.childList)
    (ok : ∀ e, h.entries r = some e → EntryOk (f e)) : WellFormed lim (h.updateEntry r f) := by
  refine wf.of_sameShape ⟨rfl, fun s => ?_⟩ fun s e read => ?_
  · by_cases sr : s = r
    · subst sr
      rcases read : h.entries s with _ | e <;> simp [read, Entry.shape, keep]
    · simp [sr]
  · simp only [Hub.updateEntry_entries] at read
    split_ifs at read with sr
    · subst sr
      obtain ⟨e0, read0, rfl⟩ := Option.map_eq_some'.mp read
      exact ok e0 read0
    · exact wf.content s e read

theorem WellFormed.setRefCount (wf : WellFormed lim h) (r : Nat) (count : Nat → Nat) :
    WellFormed lim (h.updateEntry r fun e => { e with refCount := count e.refCount }) :=
  wf.updateEntry (fun _ => ⟨rfl, rfl, rfl⟩) fun e read => (wf.content r e read).of_payload rfl rfl

end Basic

section Release

variable {lim : Limits}

theorem releaseFuel_wf : ∀ (fuel r : Nat) {h h' : Hub}, WellFormed lim h →
    (releaseFuel fuel r).run h = .ok ((), h') → WellFormed lim h'
  | 0, _, _, _, wf, run => by cases run; exact wf
  | fuel + 1, r, h, h', wf, run => by
    rcases releaseFuel_succ_inv run with ⟨-, rfl⟩ | ⟨-, -, -, rfl⟩ | ⟨e, p, read, -, up, leaf, next⟩
    · exact wf
    · exact wf.setRefCount r (· - 1)
    · exact releaseFuel_wf fuel p (wf.unlink read up leaf) next

theorem leMemRelease_wf {r : Nat} {h h' : Hub} (wf : WellFormed lim h)
    (run : (leMemRelease r).run h = .ok ((), h')) : WellFormed lim h' :=
  releaseFuel_wf _ _ wf run

theorem cleanupFuel_wf (first : Nat) : ∀ (fuel tmp : Nat) {h h' : Hub}, WellFormed lim h →
    (cleanupFuel first fuel tmp).run h = .ok ((), h') → WellFormed lim h'
  | 0, _, _, _, wf, run => by cases run; exact wf
  | fuel + 1, tmp, h, h', wf, run => by
    simp only [cleanupFuel, run_get_bind] at run
    obtain ⟨⟨⟩, h1, released, rest⟩ := run_bind_eq_ok run
    have wf1 := leMemRelease_wf wf released
    split at rest
    · cases rest; exact wf1
    · split at rest
      · exact cleanupFuel_wf first fuel _ wf1 rest
      · cases rest; exact wf1

theorem cleanup_wf {firstNew : Option Nat} {current : Nat} {h h' : Hub} (wf : WellFormed lim h)
    (run : (cleanup firstNew current).run h = .ok ((), h')) : WellFormed lim h' := by
  cases firstNew with
  | none => cases run; exact wf
  | some first => exact cleanupFuel_wf first _ _ wf run

end Release

section Create

variable {lim : Limits}

theorem addChild_none_wf {p : Nat} {pe : Entry} {name : List Char} {r? : Option Nat} {h h' : Hub}
    (wf : WellFormed lim h) (readParent : h.entries p = some pe) (valid : ValidName lim name)
    (run : (addChild lim (some p) name none).run h = .ok (r?, h')) : WellFormed lim h' := by
  have wf0 : WellFormed lim { h with allocs := h.allocs.tail } := wf.congr rfl rfl
  rw [addChild_none_run] at run
  split at run
  · rw [linkNewChild_run] at run
    split_ifs at run with short unnamed
    cases run
    exact wf0.link readParent valid (findChildEx_none unnamed readParent)
  · cases run
    exact wf0

theorem addChild_some_wf {p c : Nat} {name : List Char} {r? : Option Nat} {h h' : Hub}
    (wf : WellFormed lim h) (run : (addChild lim (some p) name (some c)).run h = .ok (r?, h')) :
    WellFormed lim h' := by
  rw [addChild_some_run] at run
  dsimp only at run
  split_ifs at run with ns
  cases run
  refine wf.updateEntry (fun _ => ⟨rfl, rfl, rfl⟩) fun e read => ⟨?_, ?_⟩
  · simp only [read, Option.getD_some] at ns
    simp [ns]
  · simp [Entry.flags]

theorem addChild_some_live {p c : Nat} {name : List Char} {r? : Option Nat} {h h' : Hub}
    (run : (addChild lim (some p) name (some c)).run h = .ok (r?, h')) :
    r? = some c ∧ (h'.entries c).isSome = (h.entries c).isSome := by
  rw [addChild_some_run] at run
  dsimp only at run
  split_ifs at run
  cases run
  simp

theorem addChild_none_live {p : Nat} {name : List Char} {r : Nat} {h h' : Hub}
    (wf : WellFormed lim h) (readParent : h.entries p = some pe)
    (run : (addChild lim (some p) name none).run h = .ok (some r, h')) : (h'.entries r).isSome := by
  rw [addChild_none_run] at run
  split at run
  · rw [linkNewChild_run] at run
    split_ifs at run
    cases run
    have wf0 : WellFormed lim { h with allocs := h.allocs.tail } := wf.congr rfl rfl
    rw [link_entries wf0 readParent]
    split_ifs <;> simp_all
  · cases run

theorem createEntryLoop_cons_inv {current : Nat} {firstNew : Option Nat} {name : List Char}
    {rest : List (List Char)} {h h' : Hub} {res : Option Nat}
    (run : (createEntryLoop lim current firstNew (name :: rest)).run h = .ok (res, h')) :
    checkEntryName lim name = .ok () ∧
    ((∃ child, resTreeFindChildEx h current name true = some child ∧ resTreeIsDeleted h child = false ∧
        rest ≠ [] ∧ (createEntryLoop lim child firstNew rest).run h = .ok (res, h')) ∨
     (∃ child h2, resTreeFindChildEx h current name true = some child ∧ resTreeIsDeleted h child = true ∧
        rest ≠ [] ∧ (addChild lim (some current) name (some child)).run h = .ok (some child, h2) ∧
        (createEntryLoop lim child (firstNew.or (some child)) rest).run h2 = .ok (res, h')) ∨
     (∃ c h2, resTreeFindChildEx h current name true = none ∧
        (addChild lim (some current) name none).run h = .ok (some c, h2) ∧
        (createEntryLoop lim c (firstNew.or (some c)) rest).run h2 = .ok (res, h')) ∨
     (∃ h2, resTreeFindChildEx h current name true = none ∧
        (addChild lim (some current) name none).run h = .ok (none, h2) ∧
        (cleanup firstNew current).run h2 = .ok ((), h') ∧ res = none)) := by
  simp only [createEntryLoop] at run
  obtain ⟨⟨⟩, h1, named, walk⟩ := run_bind_eq_ok run
  obtain ⟨checked, rfl⟩ := run_liftM_eq_ok named
  refine ⟨checked, ?_⟩
  rw [run_get_bind] at walk
  obtain ⟨fresh, walk⟩ := run_check_bind_eq_ok walk
  split at walk
  · rename_i child found
    have more : rest ≠ [] := by simpa [found] using fresh
    split at walk
    · rename_i deleted
      obtain ⟨c?, h2, added, next⟩ := run_bind_eq_ok walk
      obtain ⟨rfl, -⟩ := addChild_some_live added
      exact .inr (.inl ⟨child, h2, found, deleted, more, added, next⟩)
    · rename_i live
      exact .inl ⟨child, found, Bool.eq_false_iff.mpr live, more, walk⟩
  · rename_i found
    obtain ⟨c?, h2, added, next⟩ := run_bind_eq_ok walk
    cases c? with
    | some c => exact .inr (.inr (.inl ⟨c, h2, found, added, next⟩))
    | none =>
      obtain ⟨⟨⟩, h3, cleaned, finished⟩ := run_bind_eq_ok next
      cases finished
      exact .inr (.inr (.inr ⟨_, found, added, cleaned, rfl⟩))

theorem createEntryLoop_wf : ∀ (names : List (List Char)) (current : Nat) (firstNew : Option Nat)
    {h h' : Hub} {res : Option Nat}, WellFormed lim h → (h.entries current).isSome →
    (∀ name ∈ names, '/' ∉ name) →
    (createEntryLoop lim current firstNew names).run h = .ok (res, h') → WellFormed lim h'
  | [], _, _, _, _, _, wf, _, _, run => by cases run; exact wf
  | name :: rest, current, firstNew, h, h', res, wf, live, slash, run => by
    obtain ⟨pe, readParent⟩ := Option.isSome_iff_exists.mp live
    have slashRest : ∀ n ∈ rest, '/' ∉ n := fun n member => slash n (by simp [member])
    obtain ⟨checked, step⟩ := createEntryLoop_cons_inv run
    have valid := checkEntryName_ok_valid checked (slash name (by simp))
    rcases step with ⟨child, found, -, -, next⟩ | ⟨child, h2, found, -, -, added, next⟩ |
      ⟨c, h2, -, added, next⟩ | ⟨h2, -, added, cleaned, -⟩
    · exact createEntryLoop_wf rest child firstNew wf (findChildEx_live found) slashRest next
    · refine createEntryLoop_wf rest child _ (addChild_some_wf wf added) ?_ slashRest next
      rw [(addChild_some_live added).2]
      exact findChildEx_live found
    · exact createEntryLoop_wf rest c _ (addChild_none_wf wf readParent valid added)
        (addChild_none_live wf readParent added) slashRest next
    · exact cleanup_wf (addChild_none_wf wf readParent valid added) cleaned

theorem createEntry_wf {base : Nat} {path : List Char} {res : Option Nat} {h h' : Hub}
    (wf : WellFormed lim h) (live : h.Live base) (run : (createEntry lim base path).run h = .ok (res, h')) :
    WellFormed lim h' :=
  createEntryLoop_wf _ base none wf live (fun _ => slash_not_mem_segment) run

theorem resTreeGetEntry_wf {base : Nat} {path : List Char} {res : LeResult × Option Nat} {h h' : Hub}
    (wf : WellFormed lim h) (live : h.Live base) (run : (resTreeGetEntry lim base path).run h = .ok (res, h')) :
    WellFormed lim h' := by
  unfold resTreeGetEntry at run
  split at run
  · cases run; exact wf
  · rw [run_get_bind] at run
    obtain ⟨found, h1, lookup, rest⟩ := run_bind_eq_ok run
    obtain ⟨-, rfl⟩ := run_liftM_eq_ok lookup
    split at rest
    · cases rest; exact wf
    · obtain ⟨created, h2, creating, rest⟩ := run_bind_eq_ok rest
      split at rest <;> cases rest <;> exact createEntry_wf wf live creating

end Create

end DataHub
