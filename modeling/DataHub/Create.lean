import DataHub.Lookup

/-!
Creation and release of entries. A fresh entry holds the reference of its allocation, and
each child holds one on its parent. When a count drops to zero, EntryDestructor unlinks the
entry from its parent and releases the parent in turn. Parents have smaller handles than
their children, so an ascent from `r` takes at most `r + 1` steps; that bound is the fuel of
the two ascents below.
-/

namespace DataHub

def freshEntry (parent : Option Nat) (name : List Char) : Entry :=
  { parentPtr := parent, name := name, childList := [], type := .«namespace»,
    u := .flags { new := true }, refCount := 1 }

namespace Hub

/-- The hub once AddChild has linked a fresh entry named `name` at the end of the child list
of `p`, taking a reference on `p`. -/
def link (h : Hub) (p : Nat) (name : List Char) : Hub :=
  (({ h with nextRef := h.nextRef + 1 }.setEntry h.nextRef (some (freshEntry (some p) name))).updateEntry p
    fun e => { e with refCount := e.refCount + 1 }).updateEntry p
    fun e => { e with childList := e.childList ++ [h.nextRef] }

/-- The hub once EntryDestructor has unlinked `r` from its parent `p` and its block is free. -/
def unlink (h : Hub) (p r : Nat) : Hub :=
  (h.updateEntry p fun e => { e with childList := e.childList.erase r }).setEntry r none

end Hub

/-- AddChild once the block is allocated: copy the name, link the entry at the end of the
parent's child list and take a reference on the parent. -/
def linkNewChild (lim : Limits) (parent : Option Nat) (name : List Char) : HubM (Option Nat) := do
  check (name.length < lim.entryNameBytes) .nameCopy
  let h ← get
  let r := h.nextRef
  set { h with nextRef := r + 1 }
  modify (·.setEntry r (some (freshEntry parent name)))
  match parent with
  | some p => do
    check (resTreeFindChildEx h p name true).isNone .siblingExists
    addRef p
    updateEntry p fun e => { e with childList := e.childList ++ [r] }
  | none => pure ()
  pure (some r)

theorem linkNewChild_run (lim : Limits) (p : Nat) (name : List Char) (h : Hub) :
    (linkNewChild lim (some p) name).run h =
      if name.length < lim.entryNameBytes then
        if resTreeFindChildEx h p name true = none then .ok (some h.nextRef, h.link p name)
        else .error .siblingExists
      else .error .nameCopy := by
  by_cases short : name.length < lim.entryNameBytes
  · by_cases sibling : resTreeFindChildEx h p name true = none
    · simp [linkNewChild, short, sibling, Hub.link]
    · simp [linkNewChild, short, sibling]
  · simp [linkNewChild, short]

def addChild (lim : Limits) (parent : Option Nat) (name : List Char) :
    Option Nat → HubM (Option Nat)
  | none => do
    if ← hubMemAlloc then linkNewChild lim parent name else pure none
  | some r => do
    let h ← get
    let e := (h.entries r).getD default
    check (e.type == .«namespace») .resurrectType
    check (e.parentPtr == parent) .resurrectParent
    check e.childList.isEmpty .resurrectChildren
    updateEntry r fun e => { e with u := .flags { new := true } }
    pure (some r)

theorem addChild_none_run (lim : Limits) (p : Nat) (name : List Char) (h : Hub) :
    (addChild lim (some p) name none).run h =
      if h.allocs.headD true then (linkNewChild lim (some p) name).run { h with allocs := h.allocs.tail }
      else .ok (none, { h with allocs := h.allocs.tail }) := by
  simp only [addChild, StateT.run_bind, run_hubMemAlloc, except_bind_ok]
  split <;> rfl

theorem addChild_some_run (lim : Limits) (p : Nat) (name : List Char) (r : Nat) (h : Hub) :
    (addChild lim (some p) name (some r)).run h =
      let e := (h.entries r).getD default
      if e.type = .«namespace» then
        if e.parentPtr = some p then
          if e.childList = [] then .ok (some r, h.updateEntry r fun e => { e with u := .flags { new := true } })
          else .error .resurrectChildren
        else .error .resurrectParent
      else .error .resurrectType := by
  simp only [addChild, StateT.run_bind, run_get, except_bind_ok, run_check, beq_iff_eq, List.isEmpty_iff]
  split_ifs <;> simp

/-- EntryDestructor unlinks the entry and releases its parent; the block, which the parent's
release never reads, is freed before that release rather than after. -/
def releaseFuel : Nat → Nat → HubM Unit
  | 0, _ => pure ()
  | fuel + 1, r => do
    match (← get).entries r with
    | none => pure ()
    | some e =>
      if e.refCount ≤ 1 then
        match e.parentPtr with
        | none => throw .destructorRoot
        | some p => do
          check e.childList.isEmpty .destructorChildren
          updateEntry p fun pe => { pe with childList := pe.childList.erase r }
          modify (·.setEntry r none)
          releaseFuel fuel p
      else updateEntry r fun e => { e with refCount := e.refCount - 1 }

theorem releaseFuel_succ_run (fuel : Nat) (r : Nat) (h : Hub) :
    (releaseFuel (fuel + 1) r).run h =
      match h.entries r with
      | none => .ok ((), h)
      | some e =>
        if e.refCount ≤ 1 then
          match e.parentPtr with
          | none => .error .destructorRoot
          | some p =>
            if e.childList = [] then (releaseFuel fuel p).run (h.unlink p r)
            else .error .destructorChildren
        else .ok ((), h.updateEntry r fun e => { e with refCount := e.refCount - 1 }) := by
  simp only [releaseFuel, StateT.run_bind, run_get, except_bind_ok]
  split
  · rfl
  · split
    · split
      · rfl
      · split_ifs <;> simp_all [Hub.unlink]
    · rfl

theorem releaseFuel_succ_inv {fuel r : Nat} {h h' : Hub} (run : (releaseFuel (fuel + 1) r).run h = .ok ((), h')) :
    (h.entries r = none ∧ h' = h) ∨
    (∃ e, h.entries r = some e ∧ ¬e.refCount ≤ 1 ∧
      h' = h.updateEntry r fun e => { e with refCount := e.refCount - 1 }) ∨
    (∃ e p, h.entries r = some e ∧ e.refCount ≤ 1 ∧ e.parentPtr = some p ∧ e.childList = [] ∧
      (releaseFuel fuel p).run (h.unlink p r) = .ok ((), h')) := by
  rw [releaseFuel_succ_run] at run
  split at run
  · rename_i gone
    cases run
    exact .inl ⟨gone, rfl⟩
  · rename_i e read
    split at run
    · rename_i single
      split at run
      · cases run
      · rename_i p up
        split at run
        · rename_i leaf
          exact .inr (.inr ⟨e, p, read, single, up, leaf, run⟩)
        · cases run
    · rename_i many
      cases run
      exact .inr (.inl ⟨e, read, many, rfl⟩)

def leMemRelease (r : Nat) : HubM Unit :=
  releaseFuel (r + 1) r

/-- CreateEntry's cleanup: `do { tmp = currentEntry; currentEntry = currentEntry->parentPtr;
le_mem_Release(tmp); } while (tmp != firstNewEntry)`. -/
def cleanupFuel (firstNew : Nat) : Nat → Nat → HubM Unit
  | 0, _ => pure ()
  | fuel + 1, tmp => do
    let parent := resTreeGetParent (← get) tmp
    leMemRelease tmp
    if tmp = firstNew then pure ()
    else match parent with
      | some p => cleanupFuel firstNew fuel p
      | none => pure ()

def cleanup (firstNew : Option Nat) (current : Nat) : HubM Unit :=
  match firstNew with
  | some first => cleanupFuel first (current + 1) current
  | none => pure ()

def createEntryLoop (lim : Limits) (current : Nat) (firstNew : Option Nat) :
    List (List Char) → HubM (Option Nat)
  | [] => pure (some current)
  | name :: rest => do
    checkEntryName lim name
    let h ← get
    let child? := resTreeFindChildEx h current name true
    check (!(child?.isSome && rest.isEmpty)) .entryExists
    let added := fun (c? : Option Nat) => match c? with
      | some c => createEntryLoop lim c (firstNew.or (some c)) rest
      | none => do cleanup firstNew current; pure none
    match child? with
    | some child =>
      if resTreeIsDeleted h child then added (← addChild lim (some current) name (some child))
      else createEntryLoop lim child firstNew rest
    | none => added (← addChild lim (some current) name none)

def createEntry (lim : Limits) (base : Nat) (path : List Char) : HubM (Option Nat) :=
  createEntryLoop lim base none (pathSegments path)

def resTreeGetEntry (lim : Limits) (base : Nat) (path : List Char) :
    HubM (LeResult × Option Nat) := do
  if hubIsResourcePathMalformed lim path then pure (.badParameter, none)
  else
    match ← findEntry lim (← get) base path with
    | some e => pure (.ok, some e)
    | none =>
      match ← createEntry lim base path with
      | some e => pure (.ok, some e)
      | none => pure (.noMemory, none)

end DataHub
