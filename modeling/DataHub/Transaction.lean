import DataHub.Lifetime
import DataHub.Rollback

/-!
resTree_GetEntry as a transaction. When the walk of FindEntry meets no zombie, CreateEntry
walks the existing entries on the path, then adds one fresh entry per remaining name, each
below the one before. An allocation that fails ends the walk in the cleanup loop, which
releases the fresh entries from the deepest one up: each is a leaf holding only the reference
of its allocation, so EntryDestructor frees it and gives back the reference it held on its
parent. The first fresh entry gives back the one it held on the existing entry above it,
which holds at least one more, so the release stops there. GetEntry then returns without
reaching any assertion, and either FindEntry finds its entry or no entry has changed.

A successful GetEntry changes no lookup but those that found nothing: each link adds one
child below an entry, under a name no child there had. A walk that meets a zombie breaks the
transaction: CreateEntry stops at a zombie at the last name, and resurrects one further up,
which the cleanup of a failed allocation below it then frees.
-/

namespace DataHub

/-- The walk of FindEntry from `current` meets no zombie: every child it finds along the names
is not marked deleted, up to the first name that has no child. -/
def zombieFree (h : Hub) : Nat → List (List Char) → Bool
  | _, [] => true
  | current, name :: rest =>
    match resTreeFindChildEx h current name true with
    | some c => !resTreeIsDeleted h c && zombieFree h c rest
    | none => true

section Release

variable {lim : Limits} {h : Hub} {p : Nat} {pe : Entry} {name : List Char}

theorem unlink_link_entries (wf : WellFormed lim h) (readParent : h.entries p = some pe) (name : List Char) :
    (((h.link p name).unlink p h.nextRef).updateEntry p fun e => { e with refCount := e.refCount - 1 }).entries =
      h.entries := by
  have fresh : p ≠ h.nextRef := Nat.ne_of_lt (wf.below_next p pe readParent)
  have absent : h.nextRef ∉ pe.childList := fun member => by
    obtain ⟨ce, readChild, -⟩ := wf.children p pe _ readParent member
    simp [wf.next_free] at readChild
  funext s
  by_cases sp : s = p
  · subst sp
    simp [Hub.unlink, link_entries wf readParent, fresh, readParent, List.erase_append_right _ absent]
  · by_cases sn : s = h.nextRef
    · subst sn
      simp [Hub.unlink, wf.next_free, sp]
    · simp [Hub.unlink, link_entries wf readParent, sp, sn]

theorem release_fresh_leaf (wf : WellFormed lim h) (readParent : h.entries p = some pe) (counted : 0 < pe.refCount)
    {h' : Hub} (same : h'.entries = (h.link p name).entries) :
    ∃ h'', (leMemRelease h.nextRef).run h' = .ok ((), h'') ∧ h''.entries = h.entries := by
  obtain ⟨m, next⟩ : ∃ m, h.nextRef = m + 1 := ⟨p + (h.nextRef - p - 1), by have := wf.below_next p pe readParent; omega⟩
  have fresh : p ≠ h.nextRef := Nat.ne_of_lt (wf.below_next p pe readParent)
  have readLeaf : h'.entries h.nextRef = some (freshEntry (some p) name) := same ▸ link_fresh wf readParent name
  have readUp : (h'.unlink p h.nextRef).entries p =
      some { pe with childList := (pe.childList ++ [h.nextRef]).erase h.nextRef, refCount := pe.refCount + 1 } := by
    simp [Hub.unlink, same, link_entries wf readParent, fresh]
  refine ⟨(h'.unlink p h.nextRef).updateEntry p fun e => { e with refCount := e.refCount - 1 }, ?_, ?_⟩
  · rw [leMemRelease, releaseFuel_succ_run, readLeaf]
    simp only [freshEntry, le_refl, if_true, if_pos rfl]
    rw [next, releaseFuel_succ_run, ← next, readUp]
    dsimp only
    rw [if_neg (by omega)]
  · rw [← unlink_link_entries wf readParent name]
    funext s
    simp [Hub.unlink, same]

end Release

section Lookups

variable {lim : Limits} {h : Hub} {p : Nat} {pe : Entry} {name : List Char}

theorem findEntryLoop_of_entries {h' : Hub} (same : h'.entries = h.entries) :
    ∀ (current : Nat) (names : List (List Char)), findEntryLoop lim h' current names = findEntryLoop lim h current names
  | _, [] => rfl
  | current, _ :: rest => by
    simp only [findEntryLoop, resTreeFindChildEx, resTreeIsDeleted, nameIs, same, findEntryLoop_of_entries same _ rest]

theorem find?_eq_of_mem {α : Type} {f g : α → Bool} : ∀ {l : List α}, (∀ a ∈ l, f a = g a) → l.find? f = l.find? g
  | [], _ => rfl
  | a :: l, same => by
    simp only [List.find?_cons, same a (List.mem_cons_self a l), find?_eq_of_mem fun b member => same b (List.mem_cons_of_mem a member)]

theorem findChildEx_of_read {x : Nat} {e : Entry} (read : h.entries x = some e) (n : List Char) :
    resTreeFindChildEx h x n true = e.childList.find? fun c => nameIs h c n := by
  simp [resTreeFindChildEx, read]

theorem nameIs_link_of_child (wf : WellFormed lim h) (readParent : h.entries p = some pe) {x c : Nat} {e : Entry}
    (read : h.entries x = some e) (member : c ∈ e.childList) (n : List Char) :
    nameIs (h.link p name) c n = nameIs h c n := by
  obtain ⟨ce, readChild, -⟩ := wf.children x e c read member
  have old : c ≠ h.nextRef := Nat.ne_of_lt (wf.below_next c ce readChild)
  rw [Bool.eq_iff_iff, nameIs_iff, nameIs_iff, nameOf_link wf readParent, if_neg old]

theorem findChildEx_link (wf : WellFormed lim h) (readParent : h.entries p = some pe) (x : Nat) (n : List Char) :
    resTreeFindChildEx (h.link p name) x n true =
      if x = p ∧ n = name ∧ resTreeFindChildEx h p n true = none then some h.nextRef
      else resTreeFindChildEx h x n true := by
  have fresh : p ≠ h.nextRef := Nat.ne_of_lt (wf.below_next p pe readParent)
  by_cases xp : x = p
  · subst xp
    have newNamed : nameIs (h.link x name) h.nextRef n = decide (n = name) := by
      rw [Bool.eq_iff_iff, nameIs_iff, nameOf_link wf readParent, if_pos rfl, decide_eq_true_iff, Option.some_inj,
        eq_comm]
    have readLinked : (h.link x name).entries x =
        some { pe with childList := pe.childList ++ [h.nextRef], refCount := pe.refCount + 1 } := by
      rw [link_entries wf readParent, if_pos rfl]
    rw [findChildEx_of_read readLinked, findChildEx_of_read readParent, List.find?_append,
      find?_eq_of_mem fun c member => nameIs_link_of_child wf readParent readParent member n, List.find?_singleton,
      newNamed]
    cases (pe.childList.find? fun c => nameIs h c n) <;> by_cases named : n = name <;> simp [named]
  · by_cases xn : x = h.nextRef
    · subst xn
      simp [resTreeFindChildEx, link_entries wf readParent, fresh.symm, freshEntry, wf.next_free]
    · simp only [resTreeFindChildEx, link_entries wf readParent, xp, xn, if_false, false_and, Bool.true_or,
        Bool.true_and]
      cases read : h.entries x with
      | none => rfl
      | some e => exact find?_eq_of_mem fun c member => nameIs_link_of_child wf readParent read member n

theorem resTreeIsDeleted_link (wf : WellFormed lim h) (readParent : h.entries p = some pe) {c : Nat}
    (old : c ≠ h.nextRef) : resTreeIsDeleted (h.link p name) c = resTreeIsDeleted h c := by
  simp only [resTreeIsDeleted, link_entries wf readParent, old, if_false]
  split_ifs with cp
  · subst cp
    simp [readParent, Entry.flags]
  · rfl

theorem findEntryLoop_link (wf : WellFormed lim h) (readParent : h.entries p = some pe)
    (absent : resTreeFindChildEx h p name true = none) :
    ∀ (names : List (List Char)) (current : Nat), (∀ n ∈ names, ValidName lim n) →
      findEntryLoop lim (h.link p name) current names = findEntryLoop lim h current names ∨
        (findEntryLoop lim h current names = .ok none ∧
          findEntryLoop lim (h.link p name) current names = .ok (some h.nextRef))
  | [], _, _ => .inl rfl
  | n :: rest, current, valid => by
    have fresh : p ≠ h.nextRef := Nat.ne_of_lt (wf.below_next p pe readParent)
    have validRest : ∀ m ∈ rest, ValidName lim m := fun m member => valid m (List.mem_cons_of_mem _ member)
    simp only [findEntryLoop, checkEntryName_valid (valid n (List.mem_cons_self _ _)), except_bind_ok,
      findChildEx_link wf readParent current n]
    by_cases new : current = p ∧ n = name
    · obtain ⟨rfl, rfl⟩ := new
      have alive : resTreeIsDeleted (h.link current n) h.nextRef = false := by
        simp [resTreeIsDeleted, link_entries wf readParent, fresh.symm, freshEntry, Entry.flags]
      rw [if_pos ⟨rfl, rfl, absent⟩, absent]
      simp only [alive, Bool.false_eq_true, if_false]
      cases rest with
      | nil => exact .inr ⟨rfl, rfl⟩
      | cons m more =>
        have leafless : resTreeFindChildEx (h.link current n) h.nextRef m true = none := by
          rw [findChildEx_link wf readParent, if_neg fun linked => fresh linked.1.symm]
          simp [resTreeFindChildEx, wf.next_free]
        left
        simp only [findEntryLoop, checkEntryName_valid (validRest m (List.mem_cons_self _ _)), except_bind_ok, leafless]
    · rw [if_neg fun linked => new ⟨linked.1, linked.2.1⟩]
      cases child : resTreeFindChildEx h current n true with
      | none => exact .inl rfl
      | some c =>
        obtain ⟨e, read, member, -, -⟩ := findChildEx_some child
        obtain ⟨ce, readChild, -⟩ := wf.children current e c read member
        dsimp only
        rw [resTreeIsDeleted_link wf readParent (Nat.ne_of_lt (wf.below_next c ce readChild))]
        split
        · exact .inl rfl
        · exact findEntryLoop_link wf readParent absent rest c validRest

end Lookups

/-- `h` holds the entries of `h₀` with a chain of fresh entries below `q`, each linked below
the one before at the block nextRef pointed to, `last` the deepest. -/
inductive FreshChain (lim : Limits) (h₀ : Hub) (q : Nat) : Nat → Hub → Prop
  | first {h : Hub} (name : List Char) : resTreeFindChildEx h₀ q name true = none →
      h.entries = (h₀.link q name).entries → h.nextRef = h₀.nextRef + 1 → FreshChain lim h₀ q h₀.nextRef h
  | next {h₁ h : Hub} {last : Nat} (name : List Char) : FreshChain lim h₀ q last h₁ → WellFormed lim h₁ →
      h.entries = (h₁.link last name).entries → h.nextRef = h₁.nextRef + 1 → FreshChain lim h₀ q h₁.nextRef h

/-- `h'` adds to `h` one chain of entries down to `e`: each below the one before, the first
below an entry of `h` that had no child of its name. -/
def AddsChain (h h' : Hub) (e : Nat) : Prop :=
  ∃ q c rest name, h.Live q ∧ PathTo h' q e (c :: rest) ∧ nameOf h' c = some name ∧
    resTreeFindChildEx h q name true = none ∧ ∀ x, h'.Live x ∧ ¬h.Live x ↔ x ∈ c :: rest

section Chain

variable {lim : Limits} {h₀ : Hub} {q : Nat} {qe : Entry}

theorem FreshChain.congr {last : Nat} {h h' : Hub} (chain : FreshChain lim h₀ q last h)
    (same : h'.entries = h.entries) (next : h'.nextRef = h.nextRef) : FreshChain lim h₀ q last h' := by
  cases chain with
  | first name absent linked counted => exact .first name absent (same.trans linked) (next.trans counted)
  | next name chain wf₁ linked counted => exact .next name chain wf₁ (same.trans linked) (next.trans counted)

theorem FreshChain.leaf (wf₀ : WellFormed lim h₀) (readQ : h₀.entries q = some qe) {last : Nat} {h : Hub}
    (chain : FreshChain lim h₀ q last h) :
    (∃ p name, h.entries last = some (freshEntry (some p) name)) ∧ h.nextRef = last + 1 ∧ h₀.nextRef ≤ last := by
  induction chain with
  | first name _ linked counted => exact ⟨⟨q, name, linked ▸ link_fresh wf₀ readQ name⟩, counted, le_rfl⟩
  | next name _ wf₁ linked counted ih =>
    obtain ⟨⟨p, name₁, readLast⟩, next₁, below⟩ := ih
    exact ⟨⟨_, name, linked ▸ link_fresh wf₁ readLast name⟩, counted, by omega⟩

theorem FreshChain.cleanup (wf₀ : WellFormed lim h₀) (readQ : h₀.entries q = some qe) (counted : 0 < qe.refCount)
    {last : Nat} {h : Hub} (chain : FreshChain lim h₀ q last h) :
    ∀ {h' : Hub} (fuel : Nat), h'.entries = h.entries → last < fuel →
      ∃ h₂, (cleanupFuel h₀.nextRef fuel last).run h' = .ok ((), h₂) ∧ h₂.entries = h₀.entries := by
  induction chain with
  | first name _ linked _ =>
    intro h' fuel same enough
    obtain ⟨f, rfl⟩ : ∃ f, fuel = f + 1 := ⟨fuel - 1, by omega⟩
    obtain ⟨h₂, released, restored⟩ := release_fresh_leaf wf₀ readQ counted (same.trans linked)
    refine ⟨h₂, ?_, restored⟩
    simp only [cleanupFuel, StateT.run_bind, run_get, except_bind_ok, released, ↓reduceIte, run_pure]
  | @next h₁ h last₁ name chain wf₁ linked _ ih =>
    intro h' fuel same enough
    obtain ⟨f, rfl⟩ : ∃ f, fuel = f + 1 := ⟨fuel - 1, by omega⟩
    obtain ⟨⟨p, name₁, readLast⟩, next₁, below⟩ := chain.leaf wf₀ readQ
    obtain ⟨h₂, released, restored⟩ := release_fresh_leaf wf₁ readLast Nat.one_pos (same.trans linked)
    have fresh : h₁.nextRef ≠ last₁ := by omega
    have up : resTreeGetParent h' h₁.nextRef = some last₁ := by
      simp [resTreeGetParent, same, linked, link_entries wf₁ readLast, fresh, freshEntry]
    obtain ⟨h₃, rest, back⟩ := ih f restored (by omega)
    refine ⟨h₃, ?_, back⟩
    simp only [cleanupFuel, StateT.run_bind, run_get, except_bind_ok, released, up]
    rw [if_neg (by omega)]
    exact rest

theorem FreshChain.release_last (wf₀ : WellFormed lim h₀) (readQ : h₀.entries q = some qe) (counted : 0 < qe.refCount)
    {last : Nat} {h : Hub} (chain : FreshChain lim h₀ q last h) {h' : Hub} (same : h'.entries = h.entries) :
    ∃ h'', (leMemRelease last).run h' = .ok ((), h'') := by
  cases chain with
  | first name _ linked _ => exact (release_fresh_leaf wf₀ readQ counted (same.trans linked)).imp fun _ => And.left
  | next name chain wf₁ linked _ =>
    obtain ⟨⟨p, name₁, readLast⟩, -, -⟩ := chain.leaf wf₀ readQ
    exact (release_fresh_leaf wf₁ readLast Nat.one_pos (same.trans linked)).imp fun _ => And.left

theorem FreshChain.lookups (wf₀ : WellFormed lim h₀) (readQ : h₀.entries q = some qe) {last : Nat} {h : Hub}
    (chain : FreshChain lim h₀ q last h) (names : List (List Char)) (current : Nat)
    (valid : ∀ n ∈ names, ValidName lim n) :
    findEntryLoop lim h current names = findEntryLoop lim h₀ current names ∨
      (findEntryLoop lim h₀ current names = .ok none ∧
        ∃ x, findEntryLoop lim h current names = .ok (some x) ∧ h₀.nextRef ≤ x) := by
  induction chain with
  | first name absent linked _ =>
    rw [findEntryLoop_of_entries linked]
    exact (findEntryLoop_link wf₀ readQ absent names current valid).imp_right
      fun ⟨missing, found⟩ => ⟨missing, _, found, le_rfl⟩
  | @next h₁ h last₁ name chain wf₁ linked _ ih =>
    obtain ⟨⟨p, name₁, readLast⟩, next₁, below⟩ := chain.leaf wf₀ readQ
    have absent : resTreeFindChildEx h₁ last₁ name true = none := by simp [resTreeFindChildEx, readLast, freshEntry]
    rw [findEntryLoop_of_entries linked]
    rcases findEntryLoop_link wf₁ readLast absent names current valid with same | ⟨missing, found⟩
    · rw [same]
      exact ih
    · rcases ih with same₀ | ⟨-, x, found₁, -⟩
      · exact .inr ⟨same₀ ▸ missing, _, found, by omega⟩
      · rw [found₁] at missing
        cases missing

theorem Grows.pathTo {h h' : Hub} (grows : Grows h h') {base r : Nat} {chain : List Nat}
    (path : PathTo h base r chain) : PathTo h' base r chain := by
  induction path with
  | base => exact .base
  | child _ read up ih =>
    obtain ⟨e', read', up', -⟩ := grows.keep _ _ read
    exact ih.child read' (up'.trans up)

theorem live_link (wf : WellFormed lim h₀) {p : Nat} {pe : Entry} (readParent : h₀.entries p = some pe)
    (name : List Char) (x : Nat) : (h₀.link p name).Live x ↔ h₀.Live x ∨ x = h₀.nextRef := by
  simp only [Hub.Live, link_entries wf readParent]
  split_ifs with xp xn
  · simp [xp, readParent]
  · simp [xn]
  · simp [xn]

theorem FreshChain.adds (wf₀ : WellFormed lim h₀) (readQ : h₀.entries q = some qe) {last : Nat} {h : Hub}
    (chain : FreshChain lim h₀ q last h) : AddsChain h₀ h last := by
  induction chain with
  | @first h name absent linked _ =>
    have readNew : h.entries h₀.nextRef = some (freshEntry (some q) name) := linked ▸ link_fresh wf₀ readQ name
    refine ⟨q, h₀.nextRef, [], name, by simp [Hub.Live, readQ], by simpa using PathTo.base.child readNew rfl,
      by simp [nameOf, readNew, freshEntry], absent, fun x => ?_⟩
    have live : h.Live x ↔ h₀.Live x ∨ x = h₀.nextRef := by
      rw [Hub.Live, linked]
      exact live_link wf₀ readQ name x
    rw [live, List.mem_singleton]
    by_cases fresh : x = h₀.nextRef
    · simp [fresh, Hub.Live, wf₀.next_free]
    · simp [fresh]
  | @next h₁ h last₁ name chain wf₁ linked _ ih =>
    obtain ⟨⟨p, name₁, readLast⟩, next₁, below⟩ := chain.leaf wf₀ readQ
    obtain ⟨q', c, rest, name₀, liveQ, path, named, absent, added⟩ := ih
    have grows : Grows h₁ h := (Grows.link wf₁ readLast name).trans (Grows.of_entries linked)
    have readNew : h.entries h₁.nextRef = some (freshEntry (some last₁) name) := linked ▸ link_fresh wf₁ readLast name
    refine ⟨q', c, rest ++ [h₁.nextRef], name₀, liveQ, by simpa using (grows.pathTo path).child readNew rfl,
      grows.nameOf_eq named, absent, fun x => ?_⟩
    have live : h.Live x ↔ h₁.Live x ∨ x = h₁.nextRef := by
      rw [Hub.Live, linked]
      exact live_link wf₁ readLast name x
    have beyond : ¬h₀.Live h₁.nextRef := fun liveOld => by
      obtain ⟨e, read⟩ := Option.isSome_iff_exists.mp liveOld
      have := wf₀.below_next _ e read
      omega
    rw [live, ← List.cons_append, List.mem_append, List.mem_singleton, ← added x]
    by_cases fresh : x = h₁.nextRef
    · simp [fresh, Option.not_isSome_iff_eq_none.mp beyond, Hub.Live, wf₁.next_free]
    · simp [fresh]

end Chain

section Create

variable {lim : Limits}

theorem createEntryLoop_missing_run {current : Nat} {firstNew : Option Nat} {name : List Char}
    {rest : List (List Char)} {h : Hub} (valid : ValidName lim name)
    (missing : resTreeFindChildEx h current name true = none) :
    (createEntryLoop lim current firstNew (name :: rest)).run h =
      match (addChild lim (some current) name none).run h with
      | .ok (some c, h2) => (createEntryLoop lim c (firstNew.or (some c)) rest).run h2
      | .ok (none, h2) => ((cleanup firstNew current).run h2).map fun r => (none, r.2)
      | .error site => .error site := by
  simp only [createEntryLoop, StateT.run_bind, run_liftM, checkEntryName_valid valid, Except.map, except_bind_ok,
    run_get, missing, Option.isSome_none, Bool.false_and, Bool.not_false, run_check, if_true]
  rcases (addChild lim (some current) name none).run h with site | ⟨_ | c, h2⟩
  · rfl
  · simp only [except_bind_ok, StateT.run_bind]
    rcases (cleanup firstNew current).run h2 with site | ⟨⟨⟩, h3⟩ <;> rfl
  · rfl

theorem createEntryLoop_live_run {current c : Nat} {firstNew : Option Nat} {name : List Char}
    {rest : List (List Char)} {h : Hub} (valid : ValidName lim name)
    (found : resTreeFindChildEx h current name true = some c) (alive : resTreeIsDeleted h c = false)
    (more : rest ≠ []) :
    (createEntryLoop lim current firstNew (name :: rest)).run h = (createEntryLoop lim c firstNew rest).run h := by
  have notEmpty : rest.isEmpty = false := by simpa using more
  simp only [createEntryLoop, StateT.run_bind, run_liftM, checkEntryName_valid valid, Except.map, except_bind_ok,
    run_get, found, Option.isSome_some, notEmpty, Bool.and_false, Bool.not_false, run_check, if_true, alive,
    Bool.false_eq_true, if_false]

variable {h₀ : Hub} {q : Nat} {qe : Entry}

theorem createEntryLoop_chain (wf₀ : WellFormed lim h₀) (readQ : h₀.entries q = some qe) (counted : 0 < qe.refCount) :
    ∀ (names : List (List Char)) {last : Nat} {h : Hub}, FreshChain lim h₀ q last h → WellFormed lim h →
      (∀ name ∈ names, ValidName lim name) →
      ∃ res h', (createEntryLoop lim last (some h₀.nextRef) names).run h = .ok (res, h') ∧
        (res = none → h'.entries = h₀.entries) ∧ ∀ e, res = some e → FreshChain lim h₀ q e h'
  | [], last, h, chain, _, _ => ⟨some last, h, rfl, nofun, fun _ same => by cases same; exact chain⟩
  | name :: rest, last, h, chain, wf, valid => by
    obtain ⟨⟨p, name₁, readLast⟩, next, below⟩ := chain.leaf wf₀ readQ
    have missing : resTreeFindChildEx h last name true = none := by
      simp [resTreeFindChildEx, readLast, freshEntry]
    have validName := valid name (List.mem_cons_self _ _)
    have validRest : ∀ n ∈ rest, ValidName lim n := fun n member => valid n (List.mem_cons_of_mem _ member)
    have readLastT : ({ h with allocs := h.allocs.tail } : Hub).entries last = some (freshEntry (some p) name₁) :=
      readLast
    have missingT : resTreeFindChildEx { h with allocs := h.allocs.tail } last name true = none := missing
    rw [createEntryLoop_missing_run validName missing, addChild_none_run]
    by_cases alloc : h.allocs.headD true
    · rw [if_pos alloc, linkNewChild_run, if_pos validName.short, if_pos missingT]
      have wfT : WellFormed lim { h with allocs := h.allocs.tail } := wf.congr rfl rfl
      have wf' := wfT.link readLastT validName fun c member => by simp [freshEntry] at member
      exact createEntryLoop_chain wf₀ readQ counted rest (.next name (chain.congr rfl rfl) wfT rfl rfl) wf' validRest
    · rw [if_neg alloc]
      obtain ⟨h₂, cleaned, restored⟩ := chain.cleanup wf₀ readQ counted (last + 1)
        (show ({ h with allocs := h.allocs.tail } : Hub).entries = h.entries from rfl) (by omega)
      exact ⟨none, h₂, by simp only [cleanup, cleaned]; rfl, fun _ => restored, nofun⟩

end Create

section GetEntry

variable {lim : Limits} {h : Hub}

theorem zombieFree_allocs (plan : List Bool) :
    ∀ (current : Nat) (names : List (List Char)), zombieFree { h with allocs := plan } current names = zombieFree h current names
  | _, [] => rfl
  | current, name :: rest => by
    show (match resTreeFindChildEx h current name true with
      | some c => !resTreeIsDeleted h c && zombieFree { h with allocs := plan } c rest
      | none => true) = zombieFree h current (name :: rest)
    simp only [zombieFree, zombieFree_allocs plan _ rest]

/-- CreateEntry after a FindEntry that found nothing on a walk with no zombie: it walks the
entries that are there, adds the rest, and returns without reaching an assertion, with a
new entry or with every entry as it was. -/
theorem createEntryLoop_all_or_nothing (wf : WellFormed lim h) (counted : ∀ r e, h.entries r = some e → 0 < e.refCount) :
    ∀ (names : List (List Char)) (current : Nat), h.Live current → (∀ name ∈ names, ValidName lim name) →
      zombieFree h current names = true → findEntryLoop lim h current names = .ok none →
      ∃ res h', (createEntryLoop lim current none names).run h = .ok (res, h') ∧ (res = none → h'.entries = h.entries) ∧
        ∀ e, res = some e → ∃ q qe, h.entries q = some qe ∧ FreshChain lim h q e h'
  | [], _, _, _, _, found => by cases found
  | name :: rest, current, live, valid, clear, found => by
    obtain ⟨qe, readQ⟩ := Option.isSome_iff_exists.mp live
    have validName := valid name (List.mem_cons_self _ _)
    have validRest : ∀ n ∈ rest, ValidName lim n := fun n member => valid n (List.mem_cons_of_mem _ member)
    cases child : resTreeFindChildEx h current name true with
    | some c =>
      simp only [zombieFree, child, Bool.and_eq_true, Bool.not_eq_true'] at clear
      have foundRest : findEntryLoop lim h c rest = .ok none := by
        simpa [findEntryLoop, checkEntryName_valid validName, child, clear.1] using found
      have more : rest ≠ [] := by
        rintro rfl
        cases foundRest
      rw [createEntryLoop_live_run validName child clear.1 more]
      exact createEntryLoop_all_or_nothing wf counted rest c (findChildEx_live child) validRest clear.2 foundRest
    | none =>
      have readQT : ({ h with allocs := h.allocs.tail } : Hub).entries current = some qe := readQ
      have missingT : resTreeFindChildEx { h with allocs := h.allocs.tail } current name true = none := child
      rw [createEntryLoop_missing_run validName child, addChild_none_run]
      by_cases alloc : h.allocs.headD true
      · rw [if_pos alloc, linkNewChild_run, if_pos validName.short, if_pos missingT]
        have wfT : WellFormed lim { h with allocs := h.allocs.tail } := wf.congr rfl rfl
        have wf' := wfT.link readQT validName (findChildEx_none child readQ)
        have start : FreshChain lim h current h.nextRef (({ h with allocs := h.allocs.tail } : Hub).link current name) :=
          .first name child rfl rfl
        obtain ⟨res, h', run, restored, chained⟩ :=
          createEntryLoop_chain wf readQ (counted current qe readQ) rest start wf' validRest
        exact ⟨res, h', run, restored, fun e found => ⟨current, qe, readQ, chained e found⟩⟩
      · rw [if_neg alloc]
        exact ⟨none, { h with allocs := h.allocs.tail }, rfl, fun _ => rfl, nofun⟩

theorem resTreeGetEntry_cases_of_wf {base : Nat} {path : List Char} (wf : WellFormed lim h)
    (counted : ∀ r e, h.entries r = some e → 0 < e.refCount) (live : h.Live base)
    (clear : zombieFree h base (pathSegments path) = true) :
    ∃ res h', (resTreeGetEntry lim base path).run h = .ok (res, h') ∧
      ((hubIsResourcePathMalformed lim path = true ∧ res = (.badParameter, none) ∧ h' = h) ∨
       hubIsResourcePathMalformed lim path = false ∧
       ((∃ e, res = (.ok, some e) ∧ resTreeFindEntry lim h' base path = .ok (some e) ∧
          (h' = h ∨ ∃ q qe, h.entries q = some qe ∧ FreshChain lim h q e h')) ∨
        (res = (.noMemory, none) ∧ h'.entries = h.entries))) := by
  by_cases malformed : hubIsResourcePathMalformed lim path = true
  · exact ⟨_, _, by simp [resTreeGetEntry, malformed]; rfl, .inl ⟨malformed, rfl, rfl⟩⟩
  have wellFormed : hubIsResourcePathMalformed lim path = false := by simpa using malformed
  have valid : ∀ name ∈ pathSegments path, ValidName lim name := fun _ => segment_valid wellFormed
  obtain ⟨e?, found⟩ := findEntryLoop_valid h (pathSegments path) base valid
  cases e? with
  | some e =>
    refine ⟨_, _, by simp [resTreeGetEntry, wellFormed, findEntry, found]; rfl, .inr ⟨wellFormed, .inl ⟨e, rfl, ?_, .inl rfl⟩⟩⟩
    simp [resTreeFindEntry, wellFormed, findEntry, found]
  | none =>
    obtain ⟨res, h', creating, restored, chained⟩ :=
      createEntryLoop_all_or_nothing wf counted (pathSegments path) base live valid clear found
    cases res with
    | some e =>
      refine ⟨_, _, by simp [resTreeGetEntry, wellFormed, findEntry, found, createEntry, creating]; rfl,
        .inr ⟨wellFormed, .inl ⟨e, rfl, ?_, .inr (chained e rfl)⟩⟩⟩
      have walked := (createEntryLoop_found _ base none wf live (fun _ => slash_not_mem_segment) creating).2
      simp [resTreeFindEntry, wellFormed, findEntry, walked]
    | none =>
      exact ⟨_, _, by simp [resTreeGetEntry, wellFormed, findEntry, found, createEntry, creating]; rfl,
        .inr ⟨wellFormed, .inr ⟨rfl, restored rfl⟩⟩⟩

theorem resTreeGetEntry_cases {base : Nat} {path : List Char} (reach : Reachable lim h) (live : h.Live base)
    (plan : List Bool) (clear : zombieFree h base (pathSegments path) = true) :
    ∃ res h', (resTreeGetEntry lim base path).run { h with allocs := plan } = .ok (res, h') ∧
      ((hubIsResourcePathMalformed lim path = true ∧ res = (.badParameter, none) ∧ h' = { h with allocs := plan }) ∨
       hubIsResourcePathMalformed lim path = false ∧
       ((∃ e, res = (.ok, some e) ∧ resTreeFindEntry lim h' base path = .ok (some e) ∧
          (h' = { h with allocs := plan } ∨ ∃ q qe, h.entries q = some qe ∧ FreshChain lim { h with allocs := plan } q e h')) ∨
        (res = (.noMemory, none) ∧ h'.entries = h.entries))) :=
  have counted : ∀ r e, ({ h with allocs := plan } : Hub).entries r = some e → 0 < e.refCount :=
    fun r e read => reachable_counted reach r e read
  resTreeGetEntry_cases_of_wf ((reachable_wf reach).congr rfl rfl) counted live (by rw [zombieFree_allocs]; exact clear)

/-- resTree_GetEntry from a reachable tree, for every path whose walk from the base meets no
zombie and every pattern of allocation failures: it returns without reaching an assertion,
with LE_BAD_PARAMETER and the tree untouched exactly for a malformed path; otherwise with LE_OK
and the entry FindEntry then finds, or with LE_NO_MEMORY, NULL and every entry as before. -/
theorem getEntry_all_or_nothing {base : Nat} {path : List Char} (reach : Reachable lim h) (live : h.Live base)
    (plan : List Bool) (clear : zombieFree h base (pathSegments path) = true) :
    ∃ res h', (resTreeGetEntry lim base path).run { h with allocs := plan } = .ok (res, h') ∧
      (hubIsResourcePathMalformed lim path = true → res = (.badParameter, none) ∧ h' = { h with allocs := plan }) ∧
      (hubIsResourcePathMalformed lim path = false →
        (∃ e, res = (.ok, some e) ∧ resTreeFindEntry lim h' base path = .ok (some e)) ∨
        (res = (.noMemory, none) ∧ h'.entries = h.entries)) := by
  obtain ⟨res, h', run, outcome⟩ := resTreeGetEntry_cases reach live plan clear
  refine ⟨res, h', run, fun malformed => ?_, fun wellFormed => ?_⟩
  · rcases outcome with ⟨-, bad, same⟩ | ⟨wellFormed, -⟩
    · exact ⟨bad, same⟩
    · nomatch malformed.symm.trans wellFormed
  · rcases outcome with ⟨malformed, -⟩ | ⟨-, outcome⟩
    · nomatch malformed.symm.trans wellFormed
    · exact outcome.imp_left fun ⟨e, ok, found, _⟩ => ⟨e, ok, found⟩

theorem getEntry_all_or_nothing_on_fresh_tree : Reachable smallLimits initialHub ∧ initialHub.Live rootPtr ∧
    zombieFree initialHub rootPtr (pathSegments "a/b".toList) = true ∧
    ∃ res h', (resTreeGetEntry smallLimits rootPtr "a/b".toList).run { initialHub with allocs := [true, false] } =
        .ok (res, h') ∧
      (hubIsResourcePathMalformed smallLimits "a/b".toList = true →
        res = (.badParameter, none) ∧ h' = { initialHub with allocs := [true, false] }) ∧
      (hubIsResourcePathMalformed smallLimits "a/b".toList = false →
        (∃ e, res = (.ok, some e) ∧ resTreeFindEntry smallLimits h' rootPtr "a/b".toList = .ok (some e)) ∨
        (res = (.noMemory, none) ∧ h'.entries = initialHub.entries)) :=
  ⟨.init, by decide, by decide, getEntry_all_or_nothing .init (by decide) [true, false] (by decide)⟩

/-- resTree_GetEntry from a reachable tree on a walk with no zombie, whatever it returns: a
lookup from any entry along any valid names answers as before the call, or finds, where it
found nothing before, an entry the call created. The call leaves the live entries as they were,
or it returns LE_OK with the entry FindEntry then finds at the path, and the entries it added
are one chain down to that entry. -/
theorem getEntry_only_adds_new_entries {base : Nat} {path : List Char} (reach : Reachable lim h) (live : h.Live base)
    (plan : List Bool) (clear : zombieFree h base (pathSegments path) = true) {res : LeResult × Option Nat} {h' : Hub}
    (run : (resTreeGetEntry lim base path).run { h with allocs := plan } = .ok (res, h')) :
    (∀ current names, (∀ n ∈ names, ValidName lim n) →
      findEntryLoop lim h' current names = findEntryLoop lim h current names ∨
        (findEntryLoop lim h current names = .ok none ∧
          ∃ x, findEntryLoop lim h' current names = .ok (some x) ∧ h.nextRef ≤ x)) ∧
    ((∀ x, h'.Live x ↔ h.Live x) ∨
      ∃ e, res = (.ok, some e) ∧ resTreeFindEntry lim h' base path = .ok (some e) ∧ AddsChain h h' e) := by
  obtain ⟨res', h'', run', outcome⟩ := resTreeGetEntry_cases reach live plan clear
  obtain ⟨rfl, rfl⟩ := Prod.mk.inj (Except.ok.inj (run'.symm.trans run))
  have wf : WellFormed lim { h with allocs := plan } := (reachable_wf reach).congr rfl rfl
  rcases outcome with ⟨-, -, rfl⟩ | ⟨-, ⟨e, ok, found, rfl | ⟨q, qe, readQ, chain⟩⟩ | ⟨-, restored⟩⟩
  · exact ⟨fun current names _ => .inl (findEntryLoop_allocs plan names current), .inl fun _ => Iff.rfl⟩
  · exact ⟨fun current names _ => .inl (findEntryLoop_allocs plan names current), .inl fun _ => Iff.rfl⟩
  · refine ⟨fun current names valid => ?_, .inr ⟨e, ok, found, chain.adds wf readQ⟩⟩
    simpa only [findEntryLoop_allocs] using chain.lookups wf readQ names current valid
  · refine ⟨fun current names _ => .inl (findEntryLoop_of_entries restored current names), .inl fun x => ?_⟩
    rw [Hub.Live, Hub.Live, restored]

def hubEntryAB : Hub := stateAfter (resTreeGetEntry smallLimits rootPtr "a/b".toList) { initialHub with allocs := [] }

theorem getEntry_only_adds_new_entries_on_ab : Reachable smallLimits initialHub ∧ initialHub.Live rootPtr ∧
    zombieFree initialHub rootPtr (pathSegments "a/b".toList) = true ∧
    (resTreeGetEntry smallLimits rootPtr "a/b".toList).run { initialHub with allocs := [] } =
      .ok ((.ok, some 2), hubEntryAB) ∧
    (∀ current names, (∀ n ∈ names, ValidName smallLimits n) →
      findEntryLoop smallLimits hubEntryAB current names = findEntryLoop smallLimits initialHub current names ∨
        (findEntryLoop smallLimits initialHub current names = .ok none ∧
          ∃ x, findEntryLoop smallLimits hubEntryAB current names = .ok (some x) ∧ initialHub.nextRef ≤ x)) ∧
    ((∀ x, hubEntryAB.Live x ↔ initialHub.Live x) ∨
      ∃ e, ((.ok, some 2) : LeResult × Option Nat) = (.ok, some e) ∧
        resTreeFindEntry smallLimits hubEntryAB rootPtr "a/b".toList = .ok (some e) ∧ AddsChain initialHub hubEntryAB e) :=
  have run : (resTreeGetEntry smallLimits rootPtr "a/b".toList).run { initialHub with allocs := [] } =
      .ok ((.ok, some 2), hubEntryAB) := rfl
  ⟨.init, by decide, by decide, run, getEntry_only_adds_new_entries .init (by decide) [] (by decide) run⟩

/-- GetEntry of the zombie's own path stops at CreateEntry's LE_FATAL_IF. -/
theorem getEntry_of_zombie_aborts : Reachable smallLimits hubZombieA ∧ resTreeIsDeleted hubZombieA 1 = true ∧
    resTreeFindEntry smallLimits hubZombieA rootPtr "a".toList = .ok none ∧
    (resTreeGetEntry smallLimits rootPtr "a".toList).run hubZombieA = .error .entryExists :=
  ⟨hubZombieA_reachable, rfl, rfl, rfl⟩

/-- GetEntry of "a/b" with the allocation of "b" failing resurrects the zombie, then frees it in
the cleanup: the call reports LE_NO_MEMORY and the zombie is gone. -/
theorem failed_getEntry_frees_zombie : Reachable smallLimits hubZombieA ∧ hubZombieA.Live 1 ∧
    ((resTreeGetEntry smallLimits rootPtr "a/b".toList).run { hubZombieA with allocs := [false] }).map
      (fun result => (result.1, (result.2.entries 1).isSome)) = .ok ((.noMemory, none), false) :=
  ⟨hubZombieA_reachable, by decide, rfl⟩

end GetEntry

end DataHub
