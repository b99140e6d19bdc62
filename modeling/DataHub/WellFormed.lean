import DataHub.Step
import Mathlib.Data.List.Nodup

/-!
The shape every reachable resource tree has. Three kinds of change happen to the pool:
an update that keeps every parent, name and child list (types, flags, counts), AddChild
linking a fresh entry, and EntryDestructor unlinking a childless entry. Each keeps the
invariant; every operation is built from them.
-/

namespace DataHub

/-- The union is read at the variant last written, and a deleted namespace is not new. -/
structure EntryOk (e : Entry) : Prop where
  union : e.type = .«namespace» ↔ ∃ bits, e.u = .flags bits
  deleted_not_new : e.type = .«namespace» → e.flags.deleted = true → e.flags.new = false

structure WellFormed (lim : Limits) (h : Hub) : Prop where
  root : ∃ e, h.entries rootPtr = some e ∧ e.parentPtr = none
  below_next : ∀ r e, h.entries r = some e → r < h.nextRef
  parent : ∀ r e, h.entries r = some e → r ≠ rootPtr →
    ∃ p pe, e.parentPtr = some p ∧ p < r ∧ h.entries p = some pe ∧ r ∈ pe.childList
  children : ∀ r e c, h.entries r = some e → c ∈ e.childList →
    ∃ ce, h.entries c = some ce ∧ ce.parentPtr = some r
  names : ∀ r e, h.entries r = some e → (e.childList.map (nameOf h)).Nodup
  name_valid : ∀ r e, h.entries r = some e → r ≠ rootPtr → ValidName lim e.name
  content : ∀ r e, h.entries r = some e → EntryOk e

section Lemmas

variable {lim : Limits} {h : Hub}

theorem WellFormed.parent_lt (wf : WellFormed lim h) {c p : Nat} {ce : Entry}
    (read : h.entries c = some ce) (up : ce.parentPtr = some p) : p < c := by
  by_cases root : c = rootPtr
  · obtain ⟨e, readRoot, none⟩ := wf.root
    subst root
    rw [read] at readRoot
    cases readRoot
    simp [none] at up
  · obtain ⟨q, _, same, below, _⟩ := wf.parent c ce read root
    rw [up] at same
    cases same
    exact below

theorem WellFormed.child_lt (wf : WellFormed lim h) {r c : Nat} {e : Entry}
    (read : h.entries r = some e) (member : c ∈ e.childList) : r < c := by
  obtain ⟨ce, readChild, up⟩ := wf.children r e c read member
  exact wf.parent_lt readChild up

theorem WellFormed.next_free (wf : WellFormed lim h) : h.entries h.nextRef = none := by
  cases read : h.entries h.nextRef with
  | none => rfl
  | some e => exact absurd (wf.below_next _ e read) (Nat.lt_irrefl _)

theorem WellFormed.childList_nodup (wf : WellFormed lim h) {r : Nat} {e : Entry}
    (read : h.entries r = some e) : e.childList.Nodup :=
  List.Nodup.of_map _ (wf.names r e read)

/-- `chain` is what following parentPtr from `r` meets, `r` first and the root last. -/
inductive ParentChain (h : Hub) : Nat → List Nat → Prop
  | root : ParentChain h rootPtr [rootPtr]
  | up {r p : Nat} {e : Entry} {chain : List Nat} : r ≠ rootPtr → h.entries r = some e →
      e.parentPtr = some p → ParentChain h p chain → ParentChain h r (r :: chain)

theorem WellFormed.parentChain_le (wf : WellFormed lim h) :
    ∀ r, h.Live r → ∃ chain, ParentChain h r chain ∧ chain.Nodup ∧ ∀ x ∈ chain, x ≤ r
  | r, live => by
    by_cases root : r = rootPtr
    · subst root
      exact ⟨[rootPtr], .root, List.nodup_singleton _, by simp⟩
    · obtain ⟨e, read⟩ := Option.isSome_iff_exists.mp live
      obtain ⟨p, pe, up, below, readParent, -⟩ := wf.parent r e read root
      obtain ⟨chain, path, nodup, bound⟩ := wf.parentChain_le p (by simp [Hub.Live, readParent])
      refine ⟨r :: chain, .up root read up path, ?_, ?_⟩
      · exact List.nodup_cons.mpr ⟨fun member => absurd (bound r member) (by omega), nodup⟩
      · intro x member
        rcases List.mem_cons.mp member with rfl | member
        · exact le_refl x
        · exact le_of_lt (lt_of_le_of_lt (bound x member) below)

end Lemmas

def Entry.shape (e : Entry) : Option Nat × List Char × List Nat :=
  (e.parentPtr, e.name, e.childList)

structure SameShape (h h' : Hub) : Prop where
  next : h'.nextRef = h.nextRef
  shape : ∀ s, (h'.entries s).map Entry.shape = (h.entries s).map Entry.shape

section Shape

variable {lim : Limits} {h h' : Hub}

theorem SameShape.old (same : SameShape h h') {s : Nat} {e' : Entry} (read : h'.entries s = some e') :
    ∃ e, h.entries s = some e ∧ e.parentPtr = e'.parentPtr ∧ e.name = e'.name ∧ e.childList = e'.childList := by
  have shape := same.shape s
  cases old : h.entries s with
  | none => simp [old, read] at shape
  | some e =>
    simp only [read, old, Option.map_some', Option.some.injEq, Entry.shape, Prod.mk.injEq] at shape
    exact ⟨e, rfl, shape.1.symm, shape.2.1.symm, shape.2.2.symm⟩

theorem SameShape.new (same : SameShape h h') {s : Nat} {e : Entry} (read : h.entries s = some e) :
    ∃ e', h'.entries s = some e' ∧ e.parentPtr = e'.parentPtr ∧ e.name = e'.name ∧ e.childList = e'.childList := by
  have shape := same.shape s
  cases now : h'.entries s with
  | none => simp [now, read] at shape
  | some e' =>
    simp only [read, now, Option.map_some', Option.some.injEq, Entry.shape, Prod.mk.injEq] at shape
    exact ⟨e', rfl, shape.1.symm, shape.2.1.symm, shape.2.2.symm⟩

theorem SameShape.nameOf_eq (same : SameShape h h') : nameOf h' = nameOf h := by
  funext s
  have shape := congrArg (Option.map fun x => x.2.1) (same.shape s)
  simpa [nameOf, Option.map_map, Function.comp_def, Entry.shape] using shape

theorem WellFormed.of_sameShape (wf : WellFormed lim h) (same : SameShape h h')
    (ok : ∀ s e, h'.entries s = some e → EntryOk e) : WellFormed lim h' where
  root := by
    obtain ⟨e, read, none⟩ := wf.root
    obtain ⟨e', read', up, -⟩ := same.new read
    exact ⟨e', read', up ▸ none⟩
  below_next r e' read := by
    obtain ⟨e, old, -⟩ := same.old read
    exact same.next ▸ wf.below_next r e old
  parent r e' read root := by
    obtain ⟨e, old, up, -⟩ := same.old read
    obtain ⟨p, pe, parent, below, readParent, member⟩ := wf.parent r e old root
    obtain ⟨pe', readParent', -, -, children⟩ := same.new readParent
    exact ⟨p, pe', up ▸ parent, below, readParent', children ▸ member⟩
  children r e' c read member := by
    obtain ⟨e, old, -, -, children⟩ := same.old read
    obtain ⟨ce, readChild, up⟩ := wf.children r e c old (children ▸ member)
    obtain ⟨ce', readChild', up', -⟩ := same.new readChild
    exact ⟨ce', readChild', up' ▸ up⟩
  names r e' read := by
    obtain ⟨e, old, -, -, children⟩ := same.old read
    rw [same.nameOf_eq, ← children]
    exact wf.names r e old
  name_valid r e' read root := by
    obtain ⟨e, old, -, name, -⟩ := same.old read
    exact name ▸ wf.name_valid r e old root
  content := ok

end Shape

theorem EntryOk.of_payload {e e' : Entry} (ok : EntryOk e) (type : e'.type = e.type) (u : e'.u = e.u) :
    EntryOk e' := by
  have flags : e'.flags = e.flags := by simp [Entry.flags, u]
  exact ⟨type ▸ u ▸ ok.union, fun ns => flags ▸ ok.deleted_not_new (type ▸ ns)⟩

theorem freshEntry_ok (parent : Option Nat) (name : List Char) : EntryOk (freshEntry parent name) :=
  ⟨by simp [freshEntry], by simp [freshEntry, Entry.flags]⟩

section Link

variable {lim : Limits} {h : Hub} {p : Nat} {pe : Entry} {name : List Char}

theorem link_entries (wf : WellFormed lim h) (readParent : h.entries p = some pe) (name : List Char) (s : Nat) :
    (h.link p name).entries s =
      if s = p then some { pe with childList := pe.childList ++ [h.nextRef], refCount := pe.refCount + 1 }
      else if s = h.nextRef then some (freshEntry (some p) name) else h.entries s := by
  have fresh : p ≠ h.nextRef := Nat.ne_of_lt (wf.below_next p pe readParent)
  by_cases sp : s = p
  · subst sp
    simp [Hub.link, fresh, readParent]
  · simp [Hub.link, sp]

theorem nameOf_link (wf : WellFormed lim h) (readParent : h.entries p = some pe) (s : Nat) :
    nameOf (h.link p name) s = if s = h.nextRef then some name else nameOf h s := by
  have fresh : p ≠ h.nextRef := Nat.ne_of_lt (wf.below_next p pe readParent)
  simp only [nameOf, link_entries wf readParent]
  split_ifs with sp sn <;> simp_all [freshEntry]

theorem link_fresh (wf : WellFormed lim h) (readParent : h.entries p = some pe) (name : List Char) :
    (h.link p name).entries h.nextRef = some (freshEntry (some p) name) := by
  rw [link_entries wf readParent, if_neg (Nat.ne_of_gt (wf.below_next p pe readParent)), if_pos rfl]

theorem link_read (wf : WellFormed lim h) (readParent : h.entries p = some pe) {r : Nat} {e : Entry}
    (read : (h.link p name).entries r = some e) :
    (r = p ∧ e = { pe with childList := pe.childList ++ [h.nextRef], refCount := pe.refCount + 1 }) ∨
    (r = h.nextRef ∧ e = freshEntry (some p) name) ∨ (r ≠ p ∧ h.entries r = some e) := by
  rw [link_entries wf readParent] at read
  split_ifs at read with rp rn
  · exact .inl ⟨rp, (Option.some.inj read).symm⟩
  · exact .inr (.inl ⟨rn, (Option.some.inj read).symm⟩)
  · exact .inr (.inr ⟨rp, read⟩)

theorem WellFormed.link (wf : WellFormed lim h) (readParent : h.entries p = some pe)
    (valid : ValidName lim name) (unnamed : ∀ c ∈ pe.childList, nameOf h c ≠ some name) :
    WellFormed lim (h.link p name) := by
  have fresh : p ≠ h.nextRef := Nat.ne_of_lt (wf.below_next p pe readParent)
  have live : ∀ {r e}, h.entries r = some e → r ≠ h.nextRef := fun read =>
    Nat.ne_of_lt (wf.below_next _ _ read)
  have linked := link_entries wf readParent name p
  rw [if_pos rfl] at linked
  have sameNames : ∀ l : List Nat, (∀ c ∈ l, c ≠ h.nextRef) →
      l.map (nameOf (h.link p name)) = l.map (nameOf h) := fun l old =>
    List.map_congr_left fun c member => by rw [nameOf_link wf readParent, if_neg (old c member)]
  have unchanged : ∀ {r e}, h.entries r = some e → r ≠ p → (h.link p name).entries r = some e :=
    fun read rp => by rw [link_entries wf readParent, if_neg rp, if_neg (live read), read]
  constructor
  case root =>
    obtain ⟨e, read, none⟩ := wf.root
    by_cases rp : rootPtr = p
    · subst rp
      rw [readParent] at read
      cases read
      exact ⟨_, linked, none⟩
    · exact ⟨e, unchanged read rp, none⟩
  case below_next =>
    intro r e read
    show r < h.nextRef + 1
    rcases link_read wf readParent read with ⟨rfl, -⟩ | ⟨rfl, -⟩ | ⟨-, read⟩
    · exact Nat.lt_succ_of_lt (wf.below_next r pe readParent)
    · exact Nat.lt_succ_self _
    · exact Nat.lt_succ_of_lt (wf.below_next r e read)
  case parent =>
    intro r e read root
    rcases link_read wf readParent read with ⟨rfl, rfl⟩ | ⟨rfl, rfl⟩ | ⟨rp, read⟩
    · obtain ⟨q, qe, up, below, readQ, member⟩ := wf.parent r pe readParent root
      exact ⟨q, qe, up, below, unchanged readQ (by omega), member⟩
    · exact ⟨p, _, rfl, wf.below_next p pe readParent, linked, by simp⟩
    · obtain ⟨q, qe, up, below, readQ, member⟩ := wf.parent r e read root
      by_cases qp : q = p
      · subst qp
        rw [readParent] at readQ
        cases readQ
        exact ⟨q, _, up, below, linked, by simp [member]⟩
      · exact ⟨q, qe, up, below, unchanged readQ qp, member⟩
  case children =>
    intro r e c read member
    rcases link_read wf readParent read with ⟨rfl, rfl⟩ | ⟨rfl, rfl⟩ | ⟨-, read⟩
    · rcases List.mem_append.mp member with old | new
      · obtain ⟨ce, readChild, up⟩ := wf.children r pe c readParent old
        exact ⟨ce, unchanged readChild (Nat.ne_of_gt (wf.child_lt readParent old)), up⟩
      · rw [List.mem_singleton.mp new]
        exact ⟨_, link_fresh wf readParent name, rfl⟩
    · simp [freshEntry] at member
    · obtain ⟨ce, readChild, up⟩ := wf.children r e c read member
      by_cases cp : c = p
      · subst cp
        rw [readParent] at readChild
        cases readChild
        exact ⟨_, linked, up⟩
      · exact ⟨ce, unchanged readChild cp, up⟩
  case names =>
    intro r e read
    rcases link_read wf readParent read with ⟨rfl, rfl⟩ | ⟨rfl, rfl⟩ | ⟨-, read⟩
    · have old : ∀ c ∈ pe.childList, c ≠ h.nextRef := fun c member =>
        live (wf.children r pe c readParent member).choose_spec.1
      rw [List.map_append, sameNames _ old, List.nodup_append]
      refine ⟨wf.names r pe readParent, by simp, ?_⟩
      simp only [List.map_cons, List.map_nil, nameOf_link wf readParent, if_pos rfl]
      intro x member same
      obtain ⟨c, cmember, rfl⟩ := List.mem_map.mp member
      exact unnamed c cmember (List.mem_singleton.mp same)
    · simp [freshEntry]
    · rw [sameNames _ fun c member => live (wf.children r e c read member).choose_spec.1]
      exact wf.names r e read
  case name_valid =>
    intro r e read root
    rcases link_read wf readParent read with ⟨rfl, rfl⟩ | ⟨rfl, rfl⟩ | ⟨-, read⟩
    · exact wf.name_valid r pe readParent root
    · exact valid
    · exact wf.name_valid r e read root
  case content =>
    intro r e read
    rcases link_read wf readParent read with ⟨-, rfl⟩ | ⟨-, rfl⟩ | ⟨-, read⟩
    · exact (wf.content p pe readParent).of_payload rfl rfl
    · exact freshEntry_ok _ _
    · exact wf.content r e read

end Link

section Unlink

variable {lim : Limits} {h : Hub} {p r : Nat} {e pe : Entry}

theorem unlink_entries (readParent : h.entries p = some pe) (distinct : p ≠ r) (s : Nat) :
    (h.unlink p r).entries s =
      if s = r then none else if s = p then some { pe with childList := pe.childList.erase r }
      else h.entries s := by
  by_cases sr : s = r
  · simp [Hub.unlink, sr]
  · by_cases sp : s = p
    · subst sp
      simp [Hub.unlink, sr, readParent]
    · simp [Hub.unlink, sr, sp]

theorem unlink_read (readParent : h.entries p = some pe) (distinct : p ≠ r) {s : Nat} {e' : Entry}
    (read : (h.unlink p r).entries s = some e') :
    (s = p ∧ e' = { pe with childList := pe.childList.erase r }) ∨ (s ≠ r ∧ s ≠ p ∧ h.entries s = some e') := by
  rw [unlink_entries readParent distinct] at read
  split_ifs at read with sr sp
  · exact .inl ⟨sp, (Option.some.inj read).symm⟩
  · exact .inr ⟨sr, sp, read⟩

theorem WellFormed.unlink (wf : WellFormed lim h) (read : h.entries r = some e)
    (up : e.parentPtr = some p) (leaf : e.childList = []) : WellFormed lim (h.unlink p r) := by
  have below := wf.parent_lt read up
  obtain ⟨pe, readParent, member⟩ : ∃ pe, h.entries p = some pe ∧ r ∈ pe.childList := by
    obtain ⟨q, qe, same, _, readQ, member⟩ := wf.parent r e read (by unfold rootPtr; omega)
    rw [up] at same
    cases same
    exact ⟨qe, readQ, member⟩
  have distinct : p ≠ r := by omega
  have entries := unlink_entries readParent distinct
  have unlinked := entries p
  rw [if_neg distinct, if_pos rfl] at unlinked
  have unchanged : ∀ {s e'}, h.entries s = some e' → s ≠ r → s ≠ p → (h.unlink p r).entries s = some e' :=
    fun readS sr sp => by rw [entries, if_neg sr, if_neg sp, readS]
  have notChild : ∀ {s e'}, h.entries s = some e' → s ≠ p → r ∉ e'.childList := fun readS sp inS => by
    obtain ⟨re, readR, up'⟩ := wf.children _ _ r readS inS
    rw [read] at readR
    cases readR
    rw [up] at up'
    exact sp (Option.some.inj up').symm
  have sameNames : ∀ l : List Nat, r ∉ l → l.map (nameOf (h.unlink p r)) = l.map (nameOf h) :=
    fun l absent => List.map_congr_left fun c inL => by
      have cr : c ≠ r := fun same => absent (same ▸ inL)
      simp only [nameOf, entries, if_neg cr]
      split_ifs with cp
      · subst cp; simp [readParent]
      · rfl
  have nodup := wf.childList_nodup readParent
  constructor
  case root =>
    obtain ⟨e', readRoot, none⟩ := wf.root
    by_cases rp : rootPtr = p
    · subst rp
      rw [readParent] at readRoot
      cases readRoot
      exact ⟨_, unlinked, none⟩
    · exact ⟨e', unchanged readRoot (by unfold rootPtr; omega) rp, none⟩
  case below_next =>
    intro s e' readS
    rcases unlink_read readParent distinct readS with ⟨rfl, -⟩ | ⟨-, -, readS⟩
    · exact wf.below_next s pe readParent
    · exact wf.below_next s e' readS
  case parent =>
    intro s e' readS root
    rcases unlink_read readParent distinct readS with ⟨rfl, rfl⟩ | ⟨sr, -, readS⟩
    · obtain ⟨q, qe, upQ, belowQ, readQ, memberQ⟩ := wf.parent s pe readParent root
      exact ⟨q, qe, upQ, belowQ, unchanged readQ (by omega) (by omega), memberQ⟩
    · obtain ⟨q, qe, upQ, belowQ, readQ, memberQ⟩ := wf.parent s e' readS root
      have qr : q ≠ r := fun same => by subst same; rw [read] at readQ; cases readQ; simp [leaf] at memberQ
      by_cases qp : q = p
      · subst qp
        rw [readParent] at readQ
        cases readQ
        exact ⟨q, _, upQ, belowQ, unlinked, List.mem_erase_of_ne sr |>.mpr memberQ⟩
      · exact ⟨q, qe, upQ, belowQ, unchanged readQ qr qp, memberQ⟩
  case children =>
    intro s e' c readS inS
    rcases unlink_read readParent distinct readS with ⟨rfl, rfl⟩ | ⟨-, sp, readS⟩
    · obtain ⟨cr, inOld⟩ := (List.Nodup.mem_erase_iff nodup).mp inS
      obtain ⟨ce, readC, upC⟩ := wf.children s pe c readParent inOld
      exact ⟨ce, unchanged readC cr (Nat.ne_of_gt (wf.child_lt readParent inOld)), upC⟩
    · obtain ⟨ce, readC, upC⟩ := wf.children s e' c readS inS
      have cr : c ≠ r := fun same => notChild readS sp (same ▸ inS)
      by_cases cp : c = p
      · subst cp
        rw [readParent] at readC
        cases readC
        exact ⟨_, unlinked, upC⟩
      · exact ⟨ce, unchanged readC cr cp, upC⟩
  case names =>
    intro s e' readS
    rcases unlink_read readParent distinct readS with ⟨rfl, rfl⟩ | ⟨-, sp, readS⟩
    · rw [sameNames _ (List.Nodup.not_mem_erase nodup)]
      exact (wf.names s pe readParent).sublist ((List.erase_sublist _ _).map _)
    · rw [sameNames _ (notChild readS sp)]
      exact wf.names s e' readS
  case name_valid =>
    intro s e' readS root
    rcases unlink_read readParent distinct readS with ⟨rfl, rfl⟩ | ⟨-, -, readS⟩
    · exact wf.name_valid s pe readParent root
    · exact wf.name_valid s e' readS root
  case content =>
    intro s e' readS
    rcases unlink_read readParent distinct readS with ⟨-, rfl⟩ | ⟨-, -, readS⟩
    · exact (wf.content p pe readParent).of_payload rfl rfl
    · exact wf.content s e' readS

end Unlink

end DataHub
