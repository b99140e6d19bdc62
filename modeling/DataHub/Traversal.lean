import DataHub.Render

/-!
The walk of resTree_ForEachResource. ForEachResourceUnder tests each child of an entry in the
order of its child list and walks below it before the next, so it meets the entries below the
root in depth-first pre-order. The calls it makes are that order kept to the entries that are
not namespaces, zombies being namespaces. On a well-formed tree the order holds every live
entry but the root once, each after its ancestors and each after the subtrees of its elder
siblings, and nextRef levels of depth reach all of it.

The other walk the module offers its callers is the enumeration of one child list by
resTree_GetFirstChildEx and resTree_GetNextSiblingEx. Each call re-reads the parent's child
list through le_dls_PeekNext and returns NULL at a child it may not return, so the enumeration
is the child list up to the first such child.
-/

namespace DataHub

section Paths

variable {lim : Limits} {h : Hub} {base : Nat}

end Paths

section Preorder

variable {lim : Limits} {h : Hub}

end Preorder

section Calls

variable {lim : Limits} {h : Hub}

end Calls

section Enumeration

/-- The loop by which the callers of the module enumerate a child list,
`for (c = first; c != NULL; c = resTree_GetNextSiblingEx(c, withZombies))`, at most `fuel` turns. -/
def siblingsFrom (h : Hub) (withZombies : Bool) : Nat → Option Nat → List Nat
  | 0, _ => []
  | _ + 1, none => []
  | fuel + 1, some c => c :: siblingsFrom h withZombies fuel (resTreeGetNextSiblingEx h c withZombies)

def enumerateChildren (h : Hub) (withZombies : Bool) (fuel r : Nat) : List Nat :=
  siblingsFrom h withZombies fuel (resTreeGetFirstChildEx h r withZombies)

theorem peekNext_split {c : Nat} {post : List Nat} :
    ∀ {pre : List Nat}, (pre ++ c :: post).Nodup → peekNext (pre ++ c :: post) c = post.head?
  | [], _ => by simp [peekNext]
  | x :: pre, nodup => by
    have other : x ≠ c := fun same => (List.nodup_cons.mp nodup).1 (by simp [same])
    rw [List.cons_append, peekNext, if_neg other, peekNext_split (List.nodup_cons.mp nodup).2]

variable {lim : Limits} {h : Hub}

theorem WellFormed.nextSibling_split (wf : WellFormed lim h) {r c : Nat} {e : Entry} {pre post : List Nat}
    (read : h.entries r = some e) (split : pre ++ c :: post = e.childList) (withZombies : Bool) :
    resTreeGetNextSiblingEx h c withZombies = visible h withZombies post.head? := by
  obtain ⟨ce, readChild, up⟩ := wf.children r e c read (split ▸ by simp)
  have next := peekNext_split (split ▸ wf.childList_nodup read)
  simp only [resTreeGetNextSiblingEx, resTreeGetParent, readChild, Option.some_bind, up, read, ← split, next]

theorem siblingsFrom_suffix (wf : WellFormed lim h) {r : Nat} {e : Entry} (read : h.entries r = some e)
    (withZombies : Bool) : ∀ (post pre : List Nat) (fuel : Nat), pre ++ post = e.childList → post.length ≤ fuel →
      siblingsFrom h withZombies fuel (visible h withZombies post.head?) =
        post.takeWhile fun c => withZombies || !resTreeIsDeleted h c
  | [], _, fuel, _, _ => by cases fuel <;> rfl
  | c :: post, pre, fuel, split, enough => by
    obtain ⟨f, rfl⟩ : ∃ f, fuel = f + 1 := ⟨fuel - 1, by simp only [List.length_cons] at enough; omega⟩
    by_cases shown : (withZombies || !resTreeIsDeleted h c) = true
    · have rest := siblingsFrom_suffix wf read withZombies post (pre ++ [c]) f (by simpa using split)
        (by simp only [List.length_cons] at enough; omega)
      have head : visible h withZombies (c :: post).head? = some c := by simp [visible, shown]
      rw [head, siblingsFrom, wf.nextSibling_split read split, rest, List.takeWhile_cons, if_pos shown]
    · have head : visible h withZombies (c :: post).head? = none := by simp [visible, shown]
      rw [head, siblingsFrom, List.takeWhile_cons, if_neg shown]

/-- The enumeration of a child list on a reachable tree ends, and it visits the children in
child-list order up to the first one it may not return: with zombies, the whole list; without,
the children before the first zombie, so a zombie hides every sibling after it. -/
theorem children_enumeration (reach : Reachable lim h) {r : Nat} {children : List Nat}
    (listed : (h.entries r).map (·.childList) = some children) :
    ∀ fuel, children.length ≤ fuel →
      enumerateChildren h true fuel r = children ∧
      enumerateChildren h false fuel r = children.takeWhile fun c => !resTreeIsDeleted h c := by
  intro fuel enough
  have wf := reachable_wf reach
  obtain ⟨e, read, rfl⟩ := Option.map_eq_some'.mp listed
  have first : ∀ withZombies, resTreeGetFirstChildEx h r withZombies = visible h withZombies e.childList.head? :=
    fun _ => by simp only [resTreeGetFirstChildEx, read, Option.some_bind]
  refine ⟨?_, ?_⟩
  · rw [enumerateChildren, first, siblingsFrom_suffix wf read true _ [] fuel rfl enough]
    simp
  · rw [enumerateChildren, first, siblingsFrom_suffix wf read false _ [] fuel rfl enough]
    simp

theorem children_enumeration_at_zombie_root : Reachable smallLimits hubZombieA ∧
    (hubZombieA.entries rootPtr).map (·.childList) = some [1, 2] ∧
    enumerateChildren hubZombieA true 2 rootPtr = [1, 2] ∧
    enumerateChildren hubZombieA false 2 rootPtr = [1, 2].takeWhile fun c => !resTreeIsDeleted hubZombieA c :=
  ⟨hubZombieA_reachable, rfl, @children_enumeration smallLimits hubZombieA hubZombieA_reachable rootPtr [1, 2] rfl 2
    (by decide)⟩

/-- The first child of the root is the zombie, so the enumeration of the root's children stops
at once, before the live "obs". -/
theorem zombie_first_child_ends_enumeration : Reachable smallLimits hubZombieA ∧
    (hubZombieA.entries rootPtr).map (·.childList) = some [1, 2] ∧ resTreeIsDeleted hubZombieA 1 = true ∧
    resTreeIsDeleted hubZombieA 2 = false ∧ resTreeGetFirstChild hubZombieA rootPtr = none :=
  ⟨hubZombieA_reachable, rfl, rfl, rfl, rfl⟩

end Enumeration

end DataHub
