import DataHub.Path

/-!
Lookups of resTree.c, which read the tree and change nothing. FindEntry walks the names of
the path from the base; at each step it asks resTree_FindChildEx for the child of that name,
zombies included, and gives up when there is none or it is marked deleted.
-/

namespace DataHub

def findEntryLoop (lim : Limits) (h : Hub) (current : Nat) :
    List (List Char) → Except Abort (Option Nat)
  | [] => .ok (some current)
  | name :: rest => do
    checkEntryName lim name
    match resTreeFindChildEx h current name true with
    | some child => if resTreeIsDeleted h child then pure none else findEntryLoop lim h child rest
    | none => pure none

def findEntry (lim : Limits) (h : Hub) (base : Nat) (path : List Char) :
    Except Abort (Option Nat) :=
  findEntryLoop lim h base (pathSegments path)

def resTreeFindEntry (lim : Limits) (h : Hub) (base : Nat) (path : List Char) :
    Except Abort (Option Nat) :=
  if hubIsResourcePathMalformed lim path then .ok none else findEntry lim h base path

def resTreeFindEntryAtAbsolutePath (lim : Limits) (h : Hub) : List Char → Except Abort (Option Nat)
  | '/' :: rest => resTreeFindEntry lim h rootPtr rest
  | _ => .ok none

theorem findEntryLoop_valid {lim : Limits} (h : Hub) :
    ∀ (names : List (List Char)) (current : Nat), (∀ name ∈ names, ValidName lim name) →
      ∃ r, findEntryLoop lim h current names = .ok r
  | [], current, _ => ⟨some current, rfl⟩
  | name :: rest, current, valid => by
    simp only [findEntryLoop, checkEntryName_valid (valid name (List.mem_cons_self _ _)), except_bind_ok]
    split
    · split
      · exact ⟨none, rfl⟩
      · exact findEntryLoop_valid h rest _ fun n member => valid n (List.mem_cons_of_mem _ member)
    · exact ⟨none, rfl⟩

def resTreeGetParent (h : Hub) (r : Nat) : Option Nat :=
  (h.entries r).bind (·.parentPtr)

/-- le_dls_PeekNext: the link after `r` in a list. -/
def peekNext : List Nat → Nat → Option Nat
  | [], _ => none
  | c :: rest, r => if c = r then rest.head? else peekNext rest r

/-- A child is returned when zombies are asked for or it is not marked deleted; otherwise NULL,
without looking further along the list. -/
def visible (h : Hub) (withZombies : Bool) : Option Nat → Option Nat
  | some c => if withZombies || !resTreeIsDeleted h c then some c else none
  | none => none

def resTreeGetFirstChildEx (h : Hub) (r : Nat) (withZombies : Bool) : Option Nat :=
  visible h withZombies ((h.entries r).bind (·.childList.head?))

def resTreeGetNextSiblingEx (h : Hub) (r : Nat) (withZombies : Bool) : Option Nat :=
  match resTreeGetParent h r with
  | some p => visible h withZombies ((h.entries p).bind (peekNext ·.childList r))
  | none => none

def resTreeGetFirstChild (h : Hub) (r : Nat) : Option Nat :=
  resTreeGetFirstChildEx h r false

def resTreeGetNextSibling (h : Hub) (r : Nat) : Option Nat :=
  resTreeGetNextSiblingEx h r false

end DataHub
