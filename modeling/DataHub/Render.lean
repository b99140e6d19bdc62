import DataHub.Idempotence

/-!
Paths against entries. FindEntry walks down a chain of children by name and GetPath climbs
the same chain back up by parentPtr, writing the names on the way down. On a well-formed
tree, what FindEntry finds is rendered as the path it was found at, and a rendered path leads
FindEntry back to its entry unless a zombie sits on it. FindEntryAtAbsolutePath looks at the
spelling of a path rather than at the entry it names.
-/

namespace DataHub

/-- `chain` lists the entries from the child of `base` down to `r`, each the child of the one
before it. -/
inductive PathTo (h : Hub) (base : Nat) : Nat → List Nat → Prop
  | base : PathTo h base base []
  | child {p c : Nat} {ce : Entry} {chain : List Nat} : PathTo h base p chain →
      h.entries c = some ce → ce.parentPtr = some p → PathTo h base c (chain ++ [c])

def namesOf (h : Hub) (chain : List Nat) : List (List Char) :=
  chain.map fun c => ((h.entries c).map (·.name)).getD []

theorem joinPath_single (fromRoot : Bool) (name : List Char) :
    joinPath fromRoot [name] = (if fromRoot then ['/'] else []) ++ name := by
  cases fromRoot <;> simp [joinPath, intercalate_singleton]

theorem joinPath_append_single (fromRoot : Bool) {names : List (List Char)} (nonempty : names ≠ [])
    (name : List Char) : joinPath fromRoot (names ++ [name]) = joinPath fromRoot names ++ '/' :: name := by
  simp [joinPath, intercalate_append_single _ _ nonempty, nonempty]

section Chains

variable {lim : Limits} {h : Hub} {base : Nat}

theorem namesOf_append_single {chain : List Nat} {c : Nat} {ce : Entry} (read : h.entries c = some ce) :
    namesOf h (chain ++ [c]) = namesOf h chain ++ [ce.name] := by
  simp [namesOf, read]

theorem PathTo.bounds (wf : WellFormed lim h) {r : Nat} {chain : List Nat} (path : PathTo h base r chain) :
    base + chain.length ≤ r ∧ ∀ x ∈ chain, base < x ∧ h.Live x := by
  induction path with
  | base => simp
  | @child p c ce chain _ read up ih =>
    have lt := wf.parent_lt read up
    refine ⟨by simp; omega, fun x member => ?_⟩
    rcases List.mem_append.mp member with old | new
    · exact ih.2 x old
    · rw [List.mem_singleton.mp new]
      exact ⟨by omega, by simp [Hub.Live, read]⟩

theorem findEntryLoop_pathTo (wf : WellFormed lim h) {e : Nat} :
    ∀ (names : List (List Char)) (current : Nat) (chain : List Nat), PathTo h base current chain →
      findEntryLoop lim h current names = .ok (some e) →
      ∃ more, PathTo h base e (chain ++ more) ∧ namesOf h more = names ∧
        ∀ x ∈ more, resTreeIsDeleted h x = false
  | [], current, chain, path, found => by
    cases found
    exact ⟨[], by simpa using path, rfl, by simp⟩
  | name :: rest, current, chain, path, found => by
    obtain ⟨c, -, -, ⟨pe, read, member, named, alive⟩, next⟩ := findEntryLoop_child found
    obtain ⟨ce, readChild, up⟩ := wf.children _ _ _ read member
    obtain ⟨more, path', names, alive'⟩ :=
      findEntryLoop_pathTo wf rest c (chain ++ [c]) (path.child readChild up) next
    refine ⟨c :: more, by simpa using path', ?_, ?_⟩
    · simp only [namesOf, List.map_cons] at names ⊢
      simp only [nameOf, readChild, Option.map_some', Option.some.injEq] at named
      simp [readChild, named, names]
    · intro x member'
      rcases List.mem_cons.mp member' with rfl | later
      · exact alive
      · exact alive' x later

theorem PathTo.eq_of_nil {r : Nat} {chain : List Nat} (path : PathTo h base r chain) (empty : chain = []) :
    r = base := by
  induction path with
  | base => rfl
  | child => simp at empty

/-- What GetPath leaves for a chain below the base, with enough fuel: as much of the rendered
path as fits before the NUL, and its length exactly when all of it fits. -/
theorem getPathFuel_chain (wf : WellFormed lim h) {r size : Nat} {chain : List Nat} (path : PathTo h base r chain)
    (positive : 0 < size) : ∀ fuel, chain.length ≤ fuel + 1 →
      getPathFuel h base fuel size r =
        .ok ⟨if (joinPath (base == rootPtr) (namesOf h chain)).length < size
            then .ok (joinPath (base == rootPtr) (namesOf h chain)).length else .error .overflow,
          .wrote ((joinPath (base == rootPtr) (namesOf h chain)).take (size - 1))⟩ := by
  induction path with
  | base => intro fuel _; unfold getPathFuel; simp [positive, joinPath, namesOf, List.intercalate]
  | @child p c ce chain path' read up ih =>
    intro fuel enough
    have bounds := path'.bounds wf
    have lt := wf.parent_lt read up
    rw [namesOf_append_single read]
    unfold getPathFuel
    rw [if_neg (by omega : c ≠ base)]
    simp only [read, Option.getD_some]
    by_cases first : chain = []
    · subst first
      obtain rfl := path'.eq_of_nil rfl
      simp only [namesOf, List.map_nil, List.nil_append, joinPath_single]
      rw [if_pos up]
      by_cases root : p = rootPtr
      · simp only [root, if_true, beq_self_eq_true, List.singleton_append, leUtf8Copy_eq]
        by_cases one : 1 < size
        · obtain ⟨k, rfl⟩ : ∃ k, size = k + 2 := ⟨size - 2, by omega⟩
          by_cases fits : ce.name.length < k + 1
          · simp [fits, Nat.add_comm 1]
            omega
          · simp [fits]
        · obtain rfl | rfl : size = 0 ∨ size = 1 := by omega
          · simp
          · simp
      · have other : (p == rootPtr) = false := by simpa using root
        simp only [other, if_neg root, Bool.false_eq_true, if_false, List.nil_append, leUtf8Copy_eq]
        by_cases fits : ce.name.length < size
        · simp [fits]; omega
        · simp [fits]
    · have long := List.length_pos.mpr first
      have pBase : ce.parentPtr ≠ some base := by rw [up]; simp only [ne_eq, Option.some.injEq]; omega
      have notRoot : c ≠ rootPtr := by unfold rootPtr; omega
      obtain ⟨f, rfl⟩ : ∃ f, fuel = f + 1 := ⟨fuel - 1, by simp at enough; omega⟩
      rw [if_neg pBase, if_neg notRoot]
      rw [joinPath_append_single _ (by simpa [namesOf] using first)]
      simp only [List.length_append, List.length_cons] at enough
      dsimp only
      rw [up, Option.getD_some, ih f (by omega)]
      generalize joinPath (base == rootPtr) (namesOf h chain) = s
      by_cases inner : s.length < size
      · simp only [inner, if_true, except_bind_ok, leUtf8Copy_eq, List.take_of_length_le (by omega : s.length ≤ size - 1)]
        by_cases slash : s.length + 1 < size
        · rw [if_pos (by simp; omega)]
          by_cases fits : ce.name.length < size - s.length - 1
          · rw [if_pos fits, if_pos (by simp; omega),
              List.take_of_length_le (show ce.name.length ≤ size - s.length - 1 - 1 by omega),
              List.take_of_length_le (show (s ++ '/' :: ce.name).length ≤ size - 1 by simp; omega)]
            show Except.ok _ = Except.ok _
            simp only [List.length_append, List.length_cons, Nat.add_assoc, Nat.add_comm 1, Written.map_wrote]
          · obtain ⟨k, left⟩ : ∃ k, size - 1 - s.length = k + 1 := ⟨size - s.length - 2, by omega⟩
            rw [if_neg fits, if_neg (by simp; omega), List.take_append_eq_append_take,
              List.take_of_length_le (show s.length ≤ size - 1 by omega), left, List.take_succ_cons,
              show size - s.length - 1 - 1 = k by omega]
            rfl
        · rw [if_neg (by simp; omega), if_neg (show ¬(s ++ '/' :: ce.name).length < size by simp; omega),
            List.take_append_eq_append_take,
            List.take_of_length_le (show s.length ≤ size - 1 by omega), show size - 1 - s.length = 0 by omega,
            show size - s.length - 1 = 0 by omega]
          rfl
      · have long : ¬(s ++ '/' :: ce.name).length < size := by simp; omega
        rw [if_neg inner, if_neg long, List.take_append_of_le_length (by omega)]
        rfl

theorem getPathFuel_pathTo (wf : WellFormed lim h) {r : Nat} {chain : List Nat} (path : PathTo h base r chain) :
    chain ≠ [] → ∀ fuel size, chain.length ≤ fuel + 1 →
      (joinPath (base == rootPtr) (namesOf h chain)).length < size →
      getPathFuel h base fuel size r =
        .ok ⟨.ok (joinPath (base == rootPtr) (namesOf h chain)).length, .wrote (joinPath (base == rootPtr) (namesOf h chain))⟩ := by
  intro _ fuel size enough room
  rw [getPathFuel_chain wf path (by omega) fuel enough, if_pos room, List.take_of_length_le (by omega)]

theorem getPathFuel_unreachable (wf : WellFormed lim h) {size : Nat} :
    ∀ (fuel : Nat) {r : Nat}, h.Live r → (¬∃ chain, PathTo h base r chain) →
      getPathFuel h base fuel size r = .ok ⟨.error .notFound, .untouched⟩
  | fuel, r, live, outside => by
    have notBase : r ≠ base := by rintro rfl; exact outside ⟨[], .base⟩
    obtain ⟨ce, read⟩ := Option.isSome_iff_exists.mp live
    have notUp : ce.parentPtr ≠ some base := fun up => outside ⟨[r], by simpa using PathTo.base.child read up⟩
    unfold getPathFuel
    rw [if_neg notBase]
    simp only [read, Option.getD_some, if_neg notUp]
    split_ifs with root
    · rfl
    · obtain ⟨p, pe, up, -, readParent, -⟩ := wf.parent r ce read root
      match fuel with
      | 0 => rfl
      | f + 1 =>
        dsimp only
        rw [up, Option.getD_some, getPathFuel_unreachable wf f (by simp [Hub.Live, readParent])
          fun ⟨chain, path⟩ => outside ⟨chain ++ [r], path.child read up⟩]
        rfl

theorem findEntryLoop_append {m : Nat} : ∀ (names more : List (List Char)) (current : Nat),
    findEntryLoop lim h current names = .ok (some m) →
    findEntryLoop lim h current (names ++ more) = findEntryLoop lim h m more
  | [], _, _, found => by cases found; rfl
  | name :: names, more, current, found => by
    obtain ⟨c, checked, lookup, ⟨-, -, -, -, alive⟩, next⟩ := findEntryLoop_child found
    simp only [List.cons_append, findEntryLoop, checked, except_bind_ok, lookup, alive]
    exact findEntryLoop_append names more c next

theorem WellFormed.childNamed_of_parent (wf : WellFormed lim h) {p c : Nat} {ce : Entry}
    (read : h.entries c = some ce) (up : ce.parentPtr = some p) (alive : resTreeIsDeleted h c = false) :
    ChildNamed h p c ce.name ∧ c ≠ rootPtr := by
  have notRoot : c ≠ rootPtr := by
    have := wf.parent_lt read up
    unfold rootPtr
    omega
  obtain ⟨p', pe, up', -, readParent, member⟩ := wf.parent c ce read notRoot
  rw [up] at up'
  cases up'
  exact ⟨⟨pe, readParent, member, by simp [nameOf, read], alive⟩, notRoot⟩

theorem findEntryLoop_append_none : ∀ (names more : List (List Char)) (current : Nat),
    findEntryLoop lim h current names = .ok none → findEntryLoop lim h current (names ++ more) = .ok none
  | [], _, _, found => by cases found
  | name :: names, more, current, found => by
    simp only [findEntryLoop] at found
    simp only [List.cons_append, findEntryLoop]
    cases checked : checkEntryName lim name with
    | error => rw [checked] at found; cases found
    | ok u =>
      simp only [checked, except_bind_ok] at found ⊢
      split at found
      · split_ifs at found ⊢
        · rfl
        · exact findEntryLoop_append_none names more _ found
      · rfl

/-- FindEntry follows a chain below the base to its end, unless an entry of it is a zombie: it
stops at the first one. -/
theorem findEntryLoop_of_pathTo (wf : WellFormed lim h) {e : Nat} {chain : List Nat} (path : PathTo h base e chain) :
    findEntryLoop lim h base (namesOf h chain) =
      .ok (if ∀ x ∈ chain, resTreeIsDeleted h x = false then some e else none) := by
  induction path with
  | base => rfl
  | @child p c ce chain _ read up ih =>
    rw [namesOf_append_single read]
    by_cases alive : ∀ x ∈ chain, resTreeIsDeleted h x = false
    · rw [if_pos alive] at ih
      have notRoot : c ≠ rootPtr := by have := wf.parent_lt read up; unfold rootPtr; omega
      obtain ⟨p', pe, up', -, readParent, member⟩ := wf.parent c ce read notRoot
      rw [up] at up'
      cases up'
      rw [findEntryLoop_append _ _ _ ih]
      simp only [findEntryLoop, checkEntryName_valid (wf.name_valid c ce read notRoot), except_bind_ok,
        wf.findChildEx_member readParent member (show nameOf h c = some ce.name by simp [nameOf, read])]
      cases zombie : resTreeIsDeleted h c
      · simpa [zombie, or_imp, forall_and] using alive
      · simp [zombie, or_imp, forall_and, pure, Except.pure]
    · rw [if_neg alive] at ih
      rw [findEntryLoop_append_none _ _ _ ih, if_neg fun all => alive fun x member => all x (by simp [member])]

theorem namesOf_valid (wf : WellFormed lim h) {r : Nat} {chain : List Nat} (path : PathTo h base r chain) :
    ∀ name ∈ namesOf h chain, ValidName lim name := by
  intro name member
  obtain ⟨c, inChain, rfl⟩ := List.mem_map.mp member
  obtain ⟨below, live⟩ := (path.bounds wf).2 c inChain
  obtain ⟨ce, read⟩ := Option.isSome_iff_exists.mp live
  simpa [read] using wf.name_valid c ce read (by unfold rootPtr; omega)

theorem WellFormed.sibling_eq (wf : WellFormed lim h) {p c d : Nat} {ce de : Entry} (readC : h.entries c = some ce)
    (upC : ce.parentPtr = some p) (readD : h.entries d = some de) (upD : de.parentPtr = some p)
    (named : ce.name = de.name) : c = d := by
  have member : ∀ {z : Nat} {ze : Entry}, h.entries z = some ze → ze.parentPtr = some p →
      ∃ pe, h.entries p = some pe ∧ z ∈ pe.childList := fun {z ze} read up => by
    obtain ⟨q, pe, up', -, readP, member⟩ := wf.parent z ze read (by have := wf.parent_lt read up; unfold rootPtr; omega)
    rw [up] at up'
    cases up'
    exact ⟨pe, readP, member⟩
  obtain ⟨pe, readP, memberC⟩ := member readC upC
  obtain ⟨pe', readP', memberD⟩ := member readD upD
  rw [readP] at readP'
  cases readP'
  exact List.inj_on_of_nodup_map (wf.names p pe readP) memberC memberD (by simp [nameOf, readC, readD, named])

theorem PathTo.eq_of_namesOf (wf : WellFormed lim h) {x : Nat} {chain : List Nat} (path : PathTo h base x chain) :
    ∀ {y : Nat} {chain' : List Nat}, PathTo h base y chain' → namesOf h chain = namesOf h chain' → x = y := by
  induction path with
  | base =>
    intro y chain' path' names
    exact (path'.eq_of_nil (List.map_eq_nil_iff.mp names.symm)).symm
  | @child p c ce chain _ read up ih =>
    intro y chain' path' names
    cases path' with
    | base => simp [namesOf] at names
    | child path'' read' up' =>
      rw [namesOf_append_single read, namesOf_append_single read'] at names
      obtain ⟨names, last⟩ := List.append_inj' names rfl
      obtain rfl := ih path'' names
      exact wf.sibling_eq read up read' up' (List.singleton_inj.mp last)

end Chains

section Paths

variable {lim : Limits} {h : Hub} {base e size : Nat}

/-- What FindEntry finds at a path is rendered by GetPath as that path: its names joined by
'/', after a '/' exactly when the base is the root. -/
theorem findEntry_then_getPath {path : List Char} (reach : Reachable lim h)
    (wellFormed : hubIsResourcePathMalformed lim path = false) (nonempty : pathSegments path ≠ [])
    (found : resTreeFindEntry lim h base path = .ok (some e))
    (room : (joinPath (base == rootPtr) (pathSegments path)).length < size) :
    resTreeGetPath h size base e =
      .ok ⟨.ok (joinPath (base == rootPtr) (pathSegments path)).length,
        .wrote (joinPath (base == rootPtr) (pathSegments path))⟩ := by
  have wf := reachable_wf reach
  simp only [resTreeFindEntry, wellFormed, Bool.false_eq_true, if_false, findEntry] at found
  obtain ⟨chain, below, names, -⟩ := findEntryLoop_pathTo wf _ base [] .base found
  rw [List.nil_append] at below
  rw [← names] at room ⊢
  have long : chain ≠ [] := by
    rintro rfl
    exact nonempty names.symm
  exact getPathFuel_pathTo wf below long _ _ (by have := (below.bounds wf).1; omega) room

theorem findEntry_then_getPath_on_ab : Reachable smallLimits hubWithAB ∧
    hubIsResourcePathMalformed smallLimits "a/b".toList = false ∧ pathSegments "a/b".toList ≠ [] ∧
    resTreeFindEntry smallLimits hubWithAB rootPtr "a/b".toList = .ok (some 2) ∧
    (joinPath (rootPtr == rootPtr) (pathSegments "a/b".toList)).length < 64 ∧
    resTreeGetPath hubWithAB 64 rootPtr 2 =
      .ok ⟨.ok (joinPath (rootPtr == rootPtr) (pathSegments "a/b".toList)).length,
        .wrote (joinPath (rootPtr == rootPtr) (pathSegments "a/b".toList))⟩ :=
  have reach : Reachable smallLimits hubWithAB := afterCall_reachable .init rfl
  ⟨reach, by decide, by decide, rfl, by decide, findEntry_then_getPath reach (by decide) (by decide) rfl (by decide)⟩

/-- GetPath renders an entry below the base as a path that leads FindEntry back to it, unless
an entry from the base's child down to the entry is a zombie: then FindEntry finds nothing. -/
theorem getPath_then_findEntry {chain : List Nat} (reach : Reachable lim h) (below : PathTo h base e chain)
    (nonempty : chain ≠ []) (room : (joinPath (base == rootPtr) (namesOf h chain)).length < size) :
    ∃ text, resTreeGetPath h size base e = .ok ⟨.ok text.length, .wrote text⟩ ∧
      resTreeFindEntry lim h base text =
        .ok (if ∀ x ∈ chain, resTreeIsDeleted h x = false then some e else none) := by
  have wf := reachable_wf reach
  have valid := namesOf_valid wf below
  have segments := pathSegments_joinPath (base == rootPtr) fun n member =>
    ⟨(valid n member).nonempty, (valid n member).no_slash⟩
  refine ⟨_, getPathFuel_pathTo wf below nonempty _ _ (by have := (below.bounds wf).1; omega) room, ?_⟩
  have wellFormed : hubIsResourcePathMalformed lim (joinPath (base == rootPtr) (namesOf h chain)) = false := by
    simp only [hubIsResourcePathMalformed, segments, List.any_eq_false, Bool.or_eq_true, not_or]
    intro n member
    exact ⟨by simpa [List.isEmpty_iff] using (valid n member).nonempty, by simpa using (valid n member).short⟩
  simp only [resTreeFindEntry, wellFormed, Bool.false_eq_true, if_false, findEntry, segments]
  exact findEntryLoop_of_pathTo wf below

theorem getPath_then_findEntry_on_ab : Reachable smallLimits hubWithAB ∧ PathTo hubWithAB rootPtr 2 [1, 2] ∧
    [1, 2] ≠ [] ∧ (joinPath (rootPtr == rootPtr) (namesOf hubWithAB [1, 2])).length < 64 ∧
    ∃ text, resTreeGetPath hubWithAB 64 rootPtr 2 = .ok ⟨.ok text.length, .wrote text⟩ ∧
      resTreeFindEntry smallLimits hubWithAB rootPtr text =
        .ok (if ∀ x ∈ ([1, 2] : List Nat), resTreeIsDeleted hubWithAB x = false then some 2 else none) :=
  have reach : Reachable smallLimits hubWithAB := afterCall_reachable .init rfl
  have below : PathTo hubWithAB rootPtr 2 [1, 2] := (PathTo.base.child rfl rfl).child rfl rfl
  ⟨reach, below, by decide, by decide, getPath_then_findEntry reach below (by decide) (by decide)⟩

theorem resTreeGetPath_chain (wf : WellFormed lim h) {chain : List Nat} (path : PathTo h base e chain)
    (positive : 0 < size) :
    resTreeGetPath h size base e =
      .ok ⟨if (joinPath (base == rootPtr) (namesOf h chain)).length < size
          then .ok (joinPath (base == rootPtr) (namesOf h chain)).length else .error .overflow,
        .wrote ((joinPath (base == rootPtr) (namesOf h chain)).take (size - 1))⟩ :=
  getPathFuel_chain wf path positive _ (by have := (path.bounds wf).1; omega)

/-- GetPath in full, for a buffer of at least one byte: the fuel bound of resTree_GetPath
never cuts the climb short; LE_NOT_FOUND comes exactly for entries outside the base's subtree;
inside it the path from the base is written with its length when it fits with the NUL, and
LE_OVERFLOW comes when it does not. Every length returned on the way is below the size it is
later subtracted from. -/
theorem getPath_renders_subtree_or_notFound (reach : Reachable lim h) (live : h.Live e) (room : 1 ≤ size) :
    (∀ fuel, e < fuel → getPathFuel h base fuel size e = resTreeGetPath h size base e) ∧
    (resTreeGetPath h size base e = .ok ⟨.error .notFound, .untouched⟩ ↔ ¬∃ chain, PathTo h base e chain) ∧
    (∀ chain, PathTo h base e chain →
      ((joinPath (base == rootPtr) (namesOf h chain)).length + 1 ≤ size →
        resTreeGetPath h size base e =
          .ok ⟨.ok (joinPath (base == rootPtr) (namesOf h chain)).length,
            .wrote (joinPath (base == rootPtr) (namesOf h chain))⟩) ∧
      (size < (joinPath (base == rootPtr) (namesOf h chain)).length + 1 →
        resTreeGetPath h size base e =
          .ok ⟨.error .overflow, .wrote ((joinPath (base == rootPtr) (namesOf h chain)).take (size - 1))⟩)) ∧
    (∀ x fuel len text, getPathFuel h base fuel size x = .ok ⟨.ok len, text⟩ → len < size) := by
  have wf := reachable_wf reach
  refine ⟨fun fuel enough => ?_, ⟨fun found ⟨chain, path⟩ => ?_, fun outside => ?_⟩, fun chain path => ⟨fun fits => ?_, fun long => ?_⟩,
    fun _ _ _ _ ok => getPathFuel_ok_lt ok⟩
  · by_cases inside : ∃ chain, PathTo h base e chain
    · obtain ⟨chain, path⟩ := inside
      rw [resTreeGetPath_chain wf path room, getPathFuel_chain wf path room _ (by have := (path.bounds wf).1; omega)]
    · rw [resTreeGetPath, getPathFuel_unreachable wf _ live inside, getPathFuel_unreachable wf _ live inside]
  · rw [resTreeGetPath_chain wf path room] at found
    split_ifs at found <;> cases found
  · exact getPathFuel_unreachable wf _ live outside
  · rw [resTreeGetPath_chain wf path room, if_pos (by omega), List.take_of_length_le (by omega)]
  · rw [resTreeGetPath_chain wf path room, if_neg (by omega)]

theorem getPath_renders_subtree_or_notFound_on_ab : Reachable smallLimits hubWithAB ∧ hubWithAB.Live 2 ∧ 1 ≤ 64 ∧
    (∀ fuel, 2 < fuel → getPathFuel hubWithAB rootPtr fuel 64 2 = resTreeGetPath hubWithAB 64 rootPtr 2) ∧
    (resTreeGetPath hubWithAB 64 rootPtr 2 = .ok ⟨.error .notFound, .untouched⟩ ↔
      ¬∃ chain, PathTo hubWithAB rootPtr 2 chain) ∧
    (∀ chain, PathTo hubWithAB rootPtr 2 chain →
      ((joinPath (rootPtr == rootPtr) (namesOf hubWithAB chain)).length + 1 ≤ 64 →
        resTreeGetPath hubWithAB 64 rootPtr 2 =
          .ok ⟨.ok (joinPath (rootPtr == rootPtr) (namesOf hubWithAB chain)).length,
            .wrote (joinPath (rootPtr == rootPtr) (namesOf hubWithAB chain))⟩) ∧
      (64 < (joinPath (rootPtr == rootPtr) (namesOf hubWithAB chain)).length + 1 →
        resTreeGetPath hubWithAB 64 rootPtr 2 =
          .ok ⟨.error .overflow, .wrote ((joinPath (rootPtr == rootPtr) (namesOf hubWithAB chain)).take (64 - 1))⟩)) ∧
    (∀ x fuel len text, getPathFuel hubWithAB rootPtr fuel 64 x = .ok ⟨.ok len, text⟩ → len < 64) :=
  have reach : Reachable smallLimits hubWithAB := afterCall_reachable .init rfl
  ⟨reach, rfl, by decide, getPath_renders_subtree_or_notFound reach rfl (by decide)⟩

theorem resTreeFindEntryAtAbsolutePath_doubled_slash (lim : Limits) (h : Hub) {c : Char} (other : c ≠ '/')
    (rest : List Char) :
    resTreeFindEntryAtAbsolutePath lim h ('/' :: '/' :: c :: rest) =
      resTreeFindEntryAtAbsolutePath lim h ('/' :: c :: rest) := by
  simp [resTreeFindEntryAtAbsolutePath, resTreeFindEntry, hubIsResourcePathMalformed, findEntry, pathSegments, other]

/-- "//a" is malformed by the hub's own check, and still found on the tree of "a/b". -/
theorem doubled_slash_is_found : Reachable smallLimits hubWithAB ∧
    hubIsResourcePathMalformed smallLimits "//a".toList = true ∧
    resTreeFindEntryAtAbsolutePath smallLimits hubWithAB "//a".toList = .ok (some 1) :=
  ⟨afterCall_reachable .init rfl, rfl,
    (resTreeFindEntryAtAbsolutePath_doubled_slash smallLimits hubWithAB (by decide) []).trans rfl⟩

def hubWithOldA : Hub := afterCall smallLimits (.clearNewness 1) [] hubWithAB

/-- The tree of "a/b" once the snapshotter has cleared the newness of "a" and marked it deleted:
a zombie with a live child. -/
def hubWithZombieA : Hub := afterCall smallLimits (.setDeleted 1) [] hubWithOldA

theorem zombie_parent_hides_child : Reachable smallLimits hubWithZombieA ∧
    PathTo hubWithZombieA rootPtr 2 [1, 2] ∧ resTreeIsDeleted hubWithZombieA 2 = false ∧
    resTreeIsDeleted hubWithZombieA 1 = true ∧
    resTreeGetPath hubWithZombieA 64 rootPtr 2 = .ok ⟨.ok 4, .wrote "/a/b".toList⟩ ∧
    resTreeFindEntry smallLimits hubWithZombieA rootPtr "/a/b".toList = .ok none :=
  ⟨afterCall_reachable (afterCall_reachable (afterCall_reachable .init rfl) rfl) rfl,
    (PathTo.base.child rfl rfl).child rfl rfl, rfl, rfl, rfl, rfl⟩

/-- GetPath from the root renders two entries as one path that fits the buffer only if they are
one entry. -/
theorem resTreeGetPath_injective (wf : WellFormed lim h) {x y lx ly : Nat} {text : List Char}
    (liveX : h.Live x) (liveY : h.Live y) (renderX : resTreeGetPath h size rootPtr x = .ok ⟨.ok lx, .wrote text⟩)
    (renderY : resTreeGetPath h size rootPtr y = .ok ⟨.ok ly, .wrote text⟩) : x = y := by
  have chainOf : ∀ {z lz : Nat}, h.Live z → resTreeGetPath h size rootPtr z = .ok ⟨.ok lz, .wrote text⟩ →
      ∃ chain, PathTo h rootPtr z chain ∧ joinPath (rootPtr == rootPtr) (namesOf h chain) = text := by
    intro z lz live render
    have positive : 0 < size := Nat.lt_of_le_of_lt (Nat.zero_le _) (getPathFuel_ok_lt render)
    by_cases reached : ∃ chain, PathTo h rootPtr z chain
    · obtain ⟨chain, path⟩ := reached
      rw [resTreeGetPath, getPathFuel_chain wf path positive _ (by have := (path.bounds wf).1; omega)] at render
      split_ifs at render with fits <;> simp only [Except.ok.injEq, PathText.mk.injEq, Written.wrote.injEq] at render
      · rw [← render.2, List.take_of_length_le (by omega)]
        exact ⟨chain, path, rfl⟩
      · cases render.1
    · rw [resTreeGetPath, getPathFuel_unreachable wf _ live reached] at render
      cases render
  have segments : ∀ {z : Nat} {chain : List Nat}, PathTo h rootPtr z chain →
      pathSegments (joinPath (rootPtr == rootPtr) (namesOf h chain)) = namesOf h chain := fun path =>
    pathSegments_joinPath _ fun name member =>
      ⟨(namesOf_valid wf path name member).nonempty, (namesOf_valid wf path name member).no_slash⟩
  obtain ⟨cx, px, tx⟩ := chainOf liveX renderX
  obtain ⟨cy, py, ty⟩ := chainOf liveY renderY
  exact px.eq_of_namesOf wf py (by rw [← segments px, ← segments py, tx, ty])

end Paths

end DataHub
