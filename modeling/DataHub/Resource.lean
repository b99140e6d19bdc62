import DataHub.Create
import DataHub.GetPath

/-!
The operations that attach, convert and detach resources, and the snapshot flag protocol.
The res_* engine is outside the module: a placeholder is a fresh resource handle whose
creation may fail like any allocation, the conversions of a resource change nothing here,
and res_HasAdminSettings is an argument. So is whether the snapshotter keeps a reference on
an entry handed to snapshot_RecordNodeDeletion.
-/

namespace DataHub

def obsName : List Char := "obs".toList

def obsPrefix : List Char := "/obs/".toList

def typeOf (h : Hub) (r : Nat) : EntryType :=
  ((h.entries r).map (·.type)).getD .none

def resTreeGetObsNamespace (lim : Limits) : HubM Nat := do
  let (res, obs?) ← resTreeGetEntry lim rootPtr obsName
  check (res == .ok) .obsNamespace
  match obs? with
  | some obs => pure obs
  | none => throw .obsNamespace

/-- res_CreateObsPlaceholder or res_CreateIoPlaceholder: a fresh resource, or NULL. -/
def resCreatePlaceholder (observation : Bool) (entry : Nat) : HubM (Option Nat) := do
  if ← hubMemAlloc then
    let res := (← get).nextRes
    modify fun h => { h with nextRes := res + 1 }
    emit (.placeholderCreated observation entry)
    pure (some res)
  else pure none

def createPlaceholderForNamespace (lim : Limits) (base : Nat) (path : List Char)
    (entry : Nat) : HubM LeResult := do
  check (typeOf (← get) entry == .«namespace») .placeholderType
  let obsNamespace ← resTreeGetObsNamespace lim
  let observation := base == obsNamespace || path.take 5 == obsPrefix
  match ← resCreatePlaceholder observation entry with
  | some res => do
    updateEntry entry fun e => { e with u := .resourcePtr res, type := .placeholder }
    pure .ok
  | none => pure .noMemory

/-- The walk of resTree_GetResource: the entry at the path, found or created, and whether
this call created it. -/
def findOrCreateEntry (lim : Limits) (base : Nat) (path : List Char) :
    HubM (Option Nat × Bool) := do
  match ← findEntry lim (← get) base path with
  | some e => pure (some e, false)
  | none => do
    let e? ← createEntry lim base path
    pure (e?, e?.isSome)

/-- resTree_GetResource's promotion: a namespace at the path is replaced by a placeholder;
no entry means CreateEntry ran out of memory. -/
def promoteNamespace (lim : Limits) (base : Nat) (path : List Char) : Option Nat → HubM LeResult
  | none => pure .noMemory
  | some e => do
    if typeOf (← get) e == .«namespace» then do
      let placed ← createPlaceholderForNamespace lim base path e
      pure (if placed == .ok then .ok else .noMemory)
    else pure .ok

def releaseCreated : Option Nat → Bool → HubM Unit
  | some e, true => leMemRelease e
  | _, _ => pure ()

def resTreeGetResource (lim : Limits) (base : Nat) (path : List Char) :
    HubM (LeResult × Option Nat) := do
  if hubIsResourcePathMalformed lim path then pure (.badParameter, none)
  else
    let (entry?, created) ← findOrCreateEntry lim base path
    let ret ← promoteNamespace lim base path entry?
    if ret == .ok then pure (.ok, entry?)
    else do
      releaseCreated entry? created
      pure (ret, none)

/-- CallResourceTreeChangeHandlers: the absolute path is rendered into a buffer of
HUB_MAX_RESOURCE_PATH_BYTES, whatever GetPath returns. -/
def callResourceTreeChangeHandlers (lim : Limits) (entry : Nat) (type : EntryType)
    (op : ResourceOperation) : HubM Unit := do
  let rendered ← resTreeGetPath (← get) lim.resourcePathBytes rootPtr entry
  emit (.treeChange rendered.text type op)

/-- resTree_CreateInput and resTree_CreateOutput; the data type and units go to the res_*
conversion. -/
def resTreeCreateIo (type : EntryType) (lim : Limits) (base : Nat) (path : List Char) :
    HubM LeResult := do
  let (ret, entry?) ← resTreeGetResource lim base path
  match ret, entry? with
  | .ok, some e => do
    check (typeOf (← get) e == .placeholder) .notPlaceholder
    updateEntry e fun x => { x with type := type }
    callResourceTreeChangeHandlers lim e type .added
    pure .ok
  | _, _ => pure ret

def resTreeCreateInput (lim : Limits) (base : Nat) (path : List Char) : HubM LeResult :=
  resTreeCreateIo .input lim base path

def resTreeCreateOutput (lim : Limits) (base : Nat) (path : List Char) : HubM LeResult :=
  resTreeCreateIo .output lim base path

/-- resTree_GetObservation; the reference is written only on success. -/
def resTreeGetObservation (lim : Limits) (base : Nat) (path : List Char) :
    HubM (LeResult × Written Nat) := do
  let (ret, entry?) ← resTreeGetResource lim base path
  match ret, entry? with
  | .ok, some e => do
    let type := typeOf (← get) e
    if type == .placeholder then do
      updateEntry e fun x => { x with type := .observation }
      callResourceTreeChangeHandlers lim e .observation .added
      pure (.ok, .wrote e)
    else if type != .observation then pure (.badParameter, .untouched)
    else pure (.ok, .wrote e)
  | _, _ => pure (ret, .untouched)

/-- Modelled from the spec: snapshot_RecordNodeDeletion, which is not under src/. The
snapshotter is told of the deletion and may keep a reference on the entry, dropped later. -/
def snapshotRecordNodeDeletion (keep : Bool) (entry : Nat) : HubM Unit := do
  emit (.nodeDeletion entry)
  if keep then do
    addRef entry
    modify fun h => { h with snapshotRefs := Function.update h.snapshotRefs entry (h.snapshotRefs entry + 1) }
  else pure ()

def detachAndRelease (keep : Bool) (entry : Nat) : HubM Unit := do
  updateEntry entry fun e => { e with u := .flags {}, type := .«namespace» }
  snapshotRecordNodeDeletion keep entry
  leMemRelease entry

def resTreeDeleteIo (hasAdminSettings keep : Bool) (lim : Limits) (entry : Nat) : HubM Unit := do
  callResourceTreeChangeHandlers lim entry (typeOf (← get) entry) .removed
  if hasAdminSettings then updateEntry entry fun e => { e with type := .placeholder }
  else detachAndRelease keep entry

def resTreeDeleteObservation (keep : Bool) (lim : Limits) (entry : Nat) : HubM Unit := do
  callResourceTreeChangeHandlers lim entry .observation .removed
  detachAndRelease keep entry

def updateFlags (entry : Nat) (f : Flags → Flags) : HubM Unit :=
  updateEntry entry fun e => { e with u := .flags (f e.flags) }

/-- The flag operations of a namespace; on a resource they go to the res_* engine. -/
def onNamespace (entry : Nat) (f : Flags → Flags) : HubM Unit := do
  if typeOf (← get) entry == .«namespace» then updateFlags entry f else pure ()

def resTreeSetRelevance (entry : Nat) (relevant : Bool) : HubM Unit :=
  onNamespace entry fun f => { f with relevant := relevant }

def resTreeSetClearNewnessFlag (entry : Nat) : HubM Unit :=
  onNamespace entry fun f => { f with clearNew := true }

def resTreeClearNewness (entry : Nat) : HubM Unit :=
  onNamespace entry fun f => { f with new := false, clearNew := false }

def resTreeSetDeleted (entry : Nat) : HubM Unit := do
  let h ← get
  check (typeOf h entry == .«namespace») .setDeletedType
  check (!((h.entries entry).map (·.flags.new)).getD false) .setDeletedNew
  updateFlags entry fun f => { f with deleted := true }

/-- The snapshotter drops one of the references it keeps. -/
def snapshotRelease (entry : Nat) : HubM Unit := do
  modify fun h => { h with snapshotRefs := Function.update h.snapshotRefs entry (h.snapshotRefs entry - 1) }
  leMemRelease entry

end DataHub
