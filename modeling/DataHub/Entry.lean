import Mathlib.Data.List.Basic
import Mathlib.Logic.Function.Basic

/-!
The data model of resTree.c. Entries live in the blocks of the entry pool, named by their
handle. A handle names one allocation: the pool may hand a released block out again, and the
model gives that new entry a new handle, so handles are handed out in increasing order and the
root, which resTree_Init allocates first, is handle 0. The union `u` of Entry_t is a sum of its two
readings. A `Char` of a name or a path stands for one byte of the C string, which holds no
NUL. The res_* engine, the snapshotter and the admin handlers are outside the module: the
hub records only what crosses the boundary.
-/

namespace DataHub


def rootPtr : Nat := 0

inductive EntryType where
  | none | «namespace» | placeholder | input | output | observation
  deriving DecidableEq, Repr, Inhabited

/-- The RES_FLAG_* bits of a namespace entry. The source only sets, clears and tests them
one at a time, so a record of four booleans is the bitset. -/
structure Flags where
  new : Bool := false
  deleted : Bool := false
  relevant : Bool := false
  clearNew : Bool := false
  deriving DecidableEq, Repr, Inhabited

inductive Payload where
  | resourcePtr (res : Nat)
  | flags (bits : Flags)
  deriving DecidableEq, Repr, Inhabited

structure Entry where
  parentPtr : Option Nat
  name : List Char
  childList : List Nat
  type : EntryType
  u : Payload
  refCount : Nat
  deriving DecidableEq, Repr, Inhabited

/-- `u.flags`. Every read of the source tests the type first, so the other reading is never
taken on a reachable state. -/
def Entry.flags (e : Entry) : Flags :=
  match e.u with
  | .flags bits => bits
  | .resourcePtr _ => {}

inductive LeResult where
  | ok | notFound | noMemory | overflow | badParameter | fault | inProgress
  deriving DecidableEq, Repr

/-- What a call leaves in an output buffer or an out-parameter: nothing, when it returns before
writing it, or what it wrote. -/
inductive Written (α : Type) where
  | untouched
  | wrote (value : α)
  deriving DecidableEq, Repr

def Written.map {α β : Type} (f : α → β) : Written α → Written β
  | .untouched => .untouched
  | .wrote value => .wrote (f value)

@[simp] theorem Written.map_wrote {α β : Type} (f : α → β) (value : α) :
    (Written.wrote value).map f = .wrote (f value) := rfl

/-- le_utf8_Copy(dest, src, destSize, &len), which is not under src/: all of src with its NUL
when they fit in destSize bytes, else LE_OVERFLOW after the longest prefix that fits with a
NUL. Returns the result and the text written. -/
def leUtf8Copy (src : List Char) (destSize : Nat) : LeResult × List Char :=
  if src.length < destSize then (.ok, src) else (.overflow, src.take (destSize - 1))

theorem leUtf8Copy_eq (src : List Char) (destSize : Nat) :
    leUtf8Copy src destSize = (if src.length < destSize then .ok else .overflow, src.take (destSize - 1)) := by
  unfold leUtf8Copy
  split_ifs with fits
  · rw [List.take_of_length_le (by omega)]
  · rfl

theorem leUtf8Copy_ok {src t : List Char} {destSize : Nat} (copied : leUtf8Copy src destSize = (.ok, t)) :
    t = src ∧ src.length < destSize := by
  unfold leUtf8Copy at copied
  split_ifs at copied with fits
  · cases copied; exact ⟨rfl, fits⟩
  · cases copied

/-- HUB_MAX_ENTRY_NAME_BYTES and HUB_MAX_RESOURCE_PATH_BYTES of dataHub.h, which is not
under src/: every result holds for all values. -/
structure Limits where
  entryNameBytes : Nat
  resourcePathBytes : Nat

/-- The LE_ASSERT and LE_FATAL sites of resTree.c at which the process stops. -/
inductive Abort where
  | nameEmpty | nameTooLong | entryExists
  | nameCopy | siblingExists | resurrectType | resurrectParent | resurrectChildren
  | destructorRoot | destructorChildren
  | placeholderType | obsNamespace | notPlaceholder
  | setDeletedType | setDeletedNew | pathBufferEmpty | rootAlloc
  deriving DecidableEq, Repr

inductive ResourceOperation where
  | added | removed
  deriving DecidableEq, Repr

/-- The calls resTree makes out of the module. -/
inductive Event where
  | treeChange (path : Written (List Char)) (type : EntryType) (op : ResourceOperation)
  | placeholderCreated (observation : Bool) (entry : Nat)
  | nodeDeletion (entry : Nat)
  deriving DecidableEq, Repr

/-- The module's state and its boundary: the entry pool, the next fresh blocks of the entry
pool and of the res_* engine, the outcome of the coming allocations (`false` fails, none
left succeeds), the references the snapshotter holds, and the calls made out so far. -/
structure Hub where
  entries : Nat → Option Entry
  nextRef : Nat
  nextRes : Nat
  allocs : List Bool
  snapshotRefs : Nat → Nat
  log : List Event

namespace Hub

def setEntry (h : Hub) (r : Nat) (e : Option Entry) : Hub :=
  { h with entries := Function.update h.entries r e }

def updateEntry (h : Hub) (r : Nat) (f : Entry → Entry) : Hub :=
  h.setEntry r ((h.entries r).map f)

def Live (h : Hub) (r : Nat) : Prop := (h.entries r).isSome

instance (h : Hub) (r : Nat) : Decidable (h.Live r) :=
  inferInstanceAs (Decidable ((h.entries r).isSome = true))

@[simp] theorem setEntry_entries (h : Hub) (r s : Nat) (e : Option Entry) :
    (h.setEntry r e).entries s = if s = r then e else h.entries s :=
  Function.update_apply _ _ _ _

@[simp] theorem updateEntry_entries (h : Hub) (r s : Nat) (f : Entry → Entry) :
    (h.updateEntry r f).entries s = if s = r then (h.entries r).map f else h.entries s :=
  Function.update_apply _ _ _ _

@[simp] theorem setEntry_nextRef (h : Hub) (r : Nat) (e : Option Entry) :
    (h.setEntry r e).nextRef = h.nextRef := rfl

@[simp] theorem updateEntry_nextRef (h : Hub) (r : Nat) (f : Entry → Entry) :
    (h.updateEntry r f).nextRef = h.nextRef := rfl

@[simp] theorem setEntry_log (h : Hub) (r : Nat) (e : Option Entry) :
    (h.setEntry r e).log = h.log := rfl

@[simp] theorem updateEntry_log (h : Hub) (r : Nat) (f : Entry → Entry) :
    (h.updateEntry r f).log = h.log := rfl

@[simp] theorem setEntry_snapshotRefs (h : Hub) (r : Nat) (e : Option Entry) :
    (h.setEntry r e).snapshotRefs = h.snapshotRefs := rfl

@[simp] theorem updateEntry_snapshotRefs (h : Hub) (r : Nat) (f : Entry → Entry) :
    (h.updateEntry r f).snapshotRefs = h.snapshotRefs := rfl

end Hub

abbrev HubM := StateT Hub (Except Abort)

def hubMemAlloc : HubM Bool := fun h =>
  .ok (h.allocs.headD true, { h with allocs := h.allocs.tail })

def updateEntry (r : Nat) (f : Entry → Entry) : HubM Unit :=
  modify (·.updateEntry r f)

def emit (event : Event) : HubM Unit :=
  modify fun h => { h with log := h.log ++ [event] }

def check (ok : Bool) (site : Abort) : HubM Unit :=
  if ok then pure () else throw site

def addRef (r : Nat) : HubM Unit :=
  updateEntry r fun e => { e with refCount := e.refCount + 1 }

section Run

variable {α : Type} (h : Hub)

@[simp] theorem run_get : (get : HubM Hub).run h = .ok (h, h) := rfl

@[simp] theorem run_set (h' : Hub) : (set h' : HubM PUnit).run h = .ok (⟨⟩, h') := rfl

@[simp] theorem run_modify (f : Hub → Hub) : (modify f : HubM PUnit).run h = .ok (⟨⟩, f h) := rfl

@[simp] theorem run_pure (a : α) : (pure a : HubM α).run h = .ok (a, h) := rfl

@[simp] theorem run_throw (site : Abort) : (throw site : HubM α).run h = .error site := rfl

@[simp] theorem run_lift (x : Except Abort α) : (StateT.lift x : HubM α).run h = x.map (·, h) := by
  cases x <;> rfl

@[simp] theorem run_liftM (x : Except Abort α) : (liftM x : HubM α).run h = x.map (·, h) := by
  cases x <;> rfl

@[simp] theorem run_get_bind {β : Type} (f : Hub → HubM β) : (get >>= f).run h = (f h).run h := rfl

@[simp] theorem except_bind_ok {β : Type} (a : α) (f : α → Except Abort β) :
    (Except.ok a >>= f) = f a := rfl

@[simp] theorem except_bind_error {β : Type} (site : Abort) (f : α → Except Abort β) :
    (Except.error site >>= f) = .error site := rfl

@[simp] theorem run_hubMemAlloc :
    hubMemAlloc.run h = .ok (h.allocs.headD true, { h with allocs := h.allocs.tail }) := rfl

@[simp] theorem run_updateEntry (r : Nat) (f : Entry → Entry) :
    (updateEntry r f).run h = .ok ((), h.updateEntry r f) := rfl

@[simp] theorem run_updateEntry_bind {β : Type} (r : Nat) (f : Entry → Entry) (g : Unit → HubM β) :
    (updateEntry r f >>= g).run h = (g ()).run (h.updateEntry r f) := rfl

@[simp] theorem run_emit (event : Event) :
    (emit event).run h = .ok ((), { h with log := h.log ++ [event] }) := rfl

@[simp] theorem run_check (ok : Bool) (site : Abort) :
    (check ok site).run h = if ok then .ok ((), h) else .error site := by
  cases ok <;> rfl

theorem run_bind_eq_ok {β : Type} {x : HubM α} {f : α → HubM β} {b : β} {s s' : Hub}
    (run : (x >>= f).run s = .ok (b, s')) : ∃ a s1, x.run s = .ok (a, s1) ∧ (f a).run s1 = .ok (b, s') := by
  rw [StateT.run_bind] at run
  cases first : x.run s with
  | error site => rw [first] at run; cases run
  | ok pair => rw [first] at run; exact ⟨pair.1, pair.2, rfl, run⟩

theorem run_liftM_eq_ok {x : Except Abort α} {a : α} {s s' : Hub}
    (run : (liftM x : HubM α).run s = .ok (a, s')) : x = .ok a ∧ s' = s := by
  cases x <;> cases run
  exact ⟨rfl, rfl⟩

theorem run_check_bind_eq_ok {β : Type} {ok : Bool} {site : Abort} {f : Unit → HubM β} {b : β}
    {s s' : Hub} (run : (check ok site >>= f).run s = .ok (b, s')) : ok = true ∧ (f ()).run s = .ok (b, s') := by
  cases ok
  · cases run
  · exact ⟨rfl, run⟩

@[simp] theorem run_addRef (r : Nat) :
    (addRef r).run h = .ok ((), h.updateEntry r fun e => { e with refCount := e.refCount + 1 }) := rfl

end Run

/-- resTree_IsDeleted: only a namespace can carry the deleted flag. -/
def resTreeIsDeleted (h : Hub) (r : Nat) : Bool :=
  match h.entries r with
  | some e => e.type == .«namespace» && e.flags.deleted
  | none => false

/-- The name comparison of resTree_FindChildEx, strncmp over the name buffer. Both names are
shorter than the buffer (the path walk asserts it of the one, AddChild copies the other),
where strncmp is equality. -/
def nameIs (h : Hub) (r : Nat) (name : List Char) : Bool :=
  match h.entries r with
  | some e => e.name == name
  | none => false

def resTreeFindChildEx (h : Hub) (ns : Nat) (name : List Char) (withZombies : Bool) :
    Option Nat :=
  match h.entries ns with
  | some e => e.childList.find? fun c => (withZombies || !resTreeIsDeleted h c) && nameIs h c name
  | none => none

def nameOf (h : Hub) (r : Nat) : Option (List Char) := (h.entries r).map (·.name)

theorem nameIs_iff {h : Hub} {r : Nat} {name : List Char} : nameIs h r name = true ↔ nameOf h r = some name := by
  unfold nameIs nameOf
  cases h.entries r <;> simp

theorem findChildEx_some {h : Hub} {ns c : Nat} {name : List Char} {withZombies : Bool}
    (found : resTreeFindChildEx h ns name withZombies = some c) :
    ∃ e, h.entries ns = some e ∧ c ∈ e.childList ∧ nameOf h c = some name ∧
      (withZombies || !resTreeIsDeleted h c) = true := by
  unfold resTreeFindChildEx at found
  split at found
  · rename_i e read
    have member := List.mem_of_find?_eq_some found
    have holds := List.find?_some found
    simp only [Bool.and_eq_true, nameIs_iff] at holds
    exact ⟨e, read, member, holds.2, holds.1⟩
  · cases found

theorem findChildEx_live {h : Hub} {p c : Nat} {name : List Char} {withZombies : Bool}
    (found : resTreeFindChildEx h p name withZombies = some c) : h.Live c := by
  obtain ⟨-, -, -, named, -⟩ := findChildEx_some found
  obtain ⟨e, read, -⟩ := Option.map_eq_some'.mp named
  simp [Hub.Live, read]

theorem findChildEx_none {h : Hub} {ns : Nat} {name : List Char} {e : Entry}
    (found : resTreeFindChildEx h ns name true = none) (read : h.entries ns = some e) :
    ∀ c ∈ e.childList, nameOf h c ≠ some name := by
  intro c member named
  simp only [resTreeFindChildEx, read, List.find?_eq_none, Bool.true_or, Bool.true_and] at found
  exact found c member (nameIs_iff.mpr named)

def resTreeFindChild (h : Hub) (ns : Nat) (name : List Char) : Option Nat :=
  resTreeFindChildEx h ns name false

end DataHub
