import DataHub.Resource

/-!
Runs of the resource tree. From resTree_Init, any call of the module's public operations on
live entries, with any outcome of its allocations, and any action of the snapshotter:
marking, clearing and dropping the references it keeps. A call that aborts ends the run.
-/

namespace DataHub

def emptyHub : Hub where
  entries := fun _ => none
  nextRef := 0
  nextRes := 0
  allocs := []
  snapshotRefs := fun _ => 0
  log := []

def resTreeInit (lim : Limits) : HubM Unit := do
  let root ← addChild lim none [] none
  check root.isSome .rootAlloc

def initialHub : Hub :=
  { emptyHub with entries := Function.update emptyHub.entries rootPtr (some (freshEntry none [])),
                  nextRef := 1 }

theorem resTreeInit_run {lim : Limits} (room : 0 < lim.entryNameBytes) :
    (resTreeInit lim).run emptyHub = .ok ((), initialHub) := by
  simp [resTreeInit, addChild, hubMemAlloc, linkNewChild, check, room, emptyHub, initialHub,
    Hub.setEntry, rootPtr, StateT.run, bind, StateT.bind, get, getThe, MonadStateOf.get,
    StateT.get, set, StateT.set, modify, modifyGet, MonadStateOf.modifyGet, StateT.modifyGet,
    pure, StateT.pure, Except.pure, Except.bind]

/-- Limits for concrete runs; HUB_MAX_ENTRY_NAME_BYTES and HUB_MAX_RESOURCE_PATH_BYTES are
build-time constants defined outside src/. -/
def smallLimits : Limits where
  entryNameBytes := 16
  resourcePathBytes := 64

inductive Op where
  | getEntry (base : Nat) (path : List Char)
  | getResource (base : Nat) (path : List Char)
  | createInput (base : Nat) (path : List Char)
  | createOutput (base : Nat) (path : List Char)
  | getObservation (base : Nat) (path : List Char)
  | deleteIo (entry : Nat) (hasAdminSettings keep : Bool)
  | deleteObservation (entry : Nat) (keep : Bool)
  | setDeleted (entry : Nat)
  | setRelevance (entry : Nat) (relevant : Bool)
  | setClearNewnessFlag (entry : Nat)
  | clearNewness (entry : Nat)
  | snapshotRelease (entry : Nat)

def Op.run (lim : Limits) : Op → HubM Unit
  | .getEntry base path => discard (resTreeGetEntry lim base path)
  | .getResource base path => discard (resTreeGetResource lim base path)
  | .createInput base path => discard (resTreeCreateInput lim base path)
  | .createOutput base path => discard (resTreeCreateOutput lim base path)
  | .getObservation base path => discard (resTreeGetObservation lim base path)
  | .deleteIo entry hasAdminSettings keep => resTreeDeleteIo hasAdminSettings keep lim entry
  | .deleteObservation entry keep => resTreeDeleteObservation keep lim entry
  | .setDeleted entry => resTreeSetDeleted entry
  | .setRelevance entry relevant => resTreeSetRelevance entry relevant
  | .setClearNewnessFlag entry => resTreeSetClearNewnessFlag entry
  | .clearNewness entry => resTreeClearNewness entry
  | .snapshotRelease entry => DataHub.snapshotRelease entry

/-- The calls the module's callers may make: on live entries, DeleteIO only on an Input or an
Output, DeleteObservation only on an Observation, and the snapshotter drops only references
it keeps. -/
def Op.Allowed (h : Hub) : Op → Prop
  | .getEntry base _ | .getResource base _ | .createInput base _ | .createOutput base _
  | .getObservation base _ => h.Live base
  | .deleteIo entry _ _ => typeOf h entry = .input ∨ typeOf h entry = .output
  | .deleteObservation entry _ => typeOf h entry = .observation
  | .setDeleted entry | .setRelevance entry _ | .setClearNewnessFlag entry
  | .clearNewness entry => h.Live entry
  | .snapshotRelease entry => h.Live entry ∧ 0 < h.snapshotRefs entry

instance Op.decAllowed (h : Hub) : (op : Op) → Decidable (op.Allowed h)
  | .getEntry base _ | .getResource base _ | .createInput base _ | .createOutput base _
  | .getObservation base _ => inferInstanceAs (Decidable (h.Live base))
  | .deleteIo entry _ _ =>
    inferInstanceAs (Decidable (typeOf h entry = .input ∨ typeOf h entry = .output))
  | .deleteObservation entry _ => inferInstanceAs (Decidable (typeOf h entry = .observation))
  | .setDeleted entry | .setRelevance entry _ | .setClearNewnessFlag entry
  | .clearNewness entry => inferInstanceAs (Decidable (h.Live entry))
  | .snapshotRelease entry => inferInstanceAs (Decidable (h.Live entry ∧ 0 < h.snapshotRefs entry))

def Op.Step (lim : Limits) (op : Op) (plan : List Bool) (h h' : Hub) : Prop :=
  op.Allowed h ∧ (op.run lim).run { h with allocs := plan } = .ok ((), h')

inductive Reachable (lim : Limits) : Hub → Prop
  | init : Reachable lim initialHub
  | step {h h' : Hub} (op : Op) (plan : List Bool) :
      Reachable lim h → op.Step lim plan h h' → Reachable lim h'

def runCalls (lim : Limits) : List (Op × List Bool) → Hub → Option Hub
  | [], h => some h
  | (op, plan) :: calls, h =>
    if op.Allowed h then
      match (op.run lim).run { h with allocs := plan } with
      | .ok ((), h') => runCalls lim calls h'
      | .error _ => none
    else none

theorem runCalls_reachable {lim : Limits} :
    ∀ (calls : List (Op × List Bool)) {h h' : Hub}, Reachable lim h →
      runCalls lim calls h = some h' → Reachable lim h'
  | [], _, _, reach, run => by cases run; exact reach
  | (op, plan) :: calls, h, h', reach, run => by
    simp only [runCalls] at run
    split_ifs at run with allowed
    split at run
    · rename_i h1 ran
      exact runCalls_reachable calls (.step op plan reach ⟨allowed, ran⟩) run
    · cases run

/-- The hub after one call with its allocation plan; unchanged when the call is refused or
aborts. -/
def afterCall (lim : Limits) (op : Op) (plan : List Bool) (h : Hub) : Hub :=
  (runCalls lim [(op, plan)] h).getD h

theorem afterCall_reachable {lim : Limits} {op : Op} {plan : List Bool} {h : Hub} (reach : Reachable lim h)
    (ok : (runCalls lim [(op, plan)] h).isSome = true) : Reachable lim (afterCall lim op plan h) := by
  obtain ⟨h', run⟩ := Option.isSome_iff_exists.mp ok
  simpa [afterCall, run] using runCalls_reachable _ reach run

end DataHub
