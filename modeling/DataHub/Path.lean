import DataHub.Entry

/-!
The path grammar shared by the walks of FindEntry and CreateEntry. One iteration of their
loop skips a '/', cuts the name up to the next '/' or the end (strchrnul), asserts its length
and looks it up; the name is the last one exactly when its terminator is the end of the
string. So the loop visits the pieces of the path cut at '/', after one leading '/': the
index loop `walkPath` hands out the names of `pathSegments`, which the walks of the model
iterate over, with the same asserts in the same order.
-/

namespace DataHub

def pathSegments : List Char → List (List Char)
  | [] => []
  | c :: rest => if c = '/' then rest.splitOn '/' else (c :: rest).splitOn '/'

/-- The two LE_ASSERTs of the walk on nameLen. -/
def checkEntryName (lim : Limits) (name : List Char) : Except Abort Unit :=
  if name.length = 0 then .error .nameEmpty
  else if lim.entryNameBytes ≤ name.length then .error .nameTooLong
  else .ok ()

/-- Modelled from the spec: hub_IsResourcePathMalformed, which is not under src/. A path is
well formed when it is empty or, past an optional leading '/', non-empty names shorter than
HUB_MAX_ENTRY_NAME_BYTES separated by single '/'. -/
def hubIsResourcePathMalformed (lim : Limits) (path : List Char) : Bool :=
  (pathSegments path).any fun name => name.isEmpty || lim.entryNameBytes ≤ name.length

structure ValidName (lim : Limits) (name : List Char) : Prop where
  nonempty : name ≠ []
  no_slash : '/' ∉ name
  short : name.length < lim.entryNameBytes

/-- The path of a list of names: joined by '/', with a leading '/' when it starts at the
root and is not empty. -/
def joinPath (fromRoot : Bool) (names : List (List Char)) : List Char :=
  (if fromRoot && !names.isEmpty then ['/'] else []) ++ ['/'].intercalate names

theorem slash_not_mem_splitOn (xs : List Char) : ∀ piece ∈ xs.splitOn '/', '/' ∉ piece := by
  induction xs with
  | nil => simp [List.splitOn_nil]
  | cons x xs ih =>
    simp only [List.splitOn, List.splitOnP_cons] at ih ⊢
    split
    · rename_i slash
      simpa using ih
    · rename_i other
      obtain ⟨head, tail, split⟩ := List.exists_cons_of_ne_nil (List.splitOnP_ne_nil _ xs)
      rw [split] at ih ⊢
      intro piece member
      simp only [List.modifyHead_cons, List.mem_cons] at member
      rcases member with rfl | later
      · simp only [beq_iff_eq] at other
        simpa [Ne.symm other] using ih head (by simp)
      · exact ih piece (by simp [later])

theorem slash_not_mem_segment {path name : List Char} (member : name ∈ pathSegments path) :
    '/' ∉ name := by
  cases path with
  | nil => simp [pathSegments] at member
  | cons c rest =>
    simp only [pathSegments] at member
    split at member
    · exact slash_not_mem_splitOn rest name member
    · exact slash_not_mem_splitOn (c :: rest) name member

theorem segment_valid {lim : Limits} {path name : List Char}
    (wellFormed : hubIsResourcePathMalformed lim path = false) (member : name ∈ pathSegments path) :
    ValidName lim name := by
  simp only [hubIsResourcePathMalformed, List.any_eq_false, Bool.or_eq_true, not_or,
    List.isEmpty_iff, decide_eq_true_eq, not_le] at wellFormed
  exact ⟨(wellFormed name member).1, slash_not_mem_segment member, (wellFormed name member).2⟩

theorem checkEntryName_valid {lim : Limits} {name : List Char} (valid : ValidName lim name) :
    checkEntryName lim name = .ok () := by
  have : name.length ≠ 0 := fun zero => valid.nonempty (List.length_eq_zero.mp zero)
  simp [checkEntryName, this, valid.short]

theorem checkEntryName_ok_valid {lim : Limits} {name : List Char} (checked : checkEntryName lim name = .ok ())
    (slash : '/' ∉ name) : ValidName lim name := by
  unfold checkEntryName at checked
  split_ifs at checked with empty long
  exact ⟨fun nil => empty (by simp [nil]), slash, by omega⟩

theorem intercalate_singleton (sep x : List Char) : sep.intercalate [x] = x := by
  simp [List.intercalate]

theorem intercalate_cons_cons (sep x y : List Char) (ys : List (List Char)) :
    sep.intercalate (x :: y :: ys) = x ++ sep ++ sep.intercalate (y :: ys) := by
  simp [List.intercalate, List.intersperse]

theorem intercalate_append_single (sep y : List Char) {xs : List (List Char)} (nonempty : xs ≠ []) :
    sep.intercalate (xs ++ [y]) = sep.intercalate xs ++ sep ++ y := by
  induction xs with
  | nil => contradiction
  | cons x xs ih =>
    cases xs with
    | nil => simp [intercalate_cons_cons, intercalate_singleton]
    | cons x' xs' =>
      simp only [List.cons_append, intercalate_cons_cons] at ih ⊢
      rw [ih (List.cons_ne_nil _ _)]
      simp

theorem pathSegments_joinPath (fromRoot : Bool) {names : List (List Char)}
    (valid : ∀ name ∈ names, name ≠ [] ∧ '/' ∉ name) : pathSegments (joinPath fromRoot names) = names := by
  cases names with
  | nil => cases fromRoot <;> rfl
  | cons first rest =>
    have noSlash : ∀ l ∈ first :: rest, '/' ∉ l := fun l member => (valid l member).2
    have roundTrip := List.splitOn_intercalate _ '/' noSlash (List.cons_ne_nil _ _)
    cases fromRoot
    · obtain ⟨c, tail, rfl⟩ := List.exists_cons_of_ne_nil (valid first (by simp)).1
      have other : c ≠ '/' := fun same => (valid (c :: tail) (by simp)).2 (by simp [same])
      have head : ∃ more, ['/'].intercalate ((c :: tail) :: rest) = c :: more := by
        cases rest with
        | nil => exact ⟨tail, intercalate_singleton _ _⟩
        | cons y ys => exact ⟨_, by rw [intercalate_cons_cons]; rfl⟩
      obtain ⟨more, split⟩ := head
      simpa [joinPath, pathSegments, split, other] using roundTrip
    · simpa [joinPath, pathSegments] using roundTrip

section Walk

variable {lim : Limits}

theorem splitOn_takeWhile (t : List Char) :
    t.splitOn '/' = t.takeWhile (· != '/') ::
      match t.dropWhile (· != '/') with
      | [] => []
      | _ :: u => u.splitOn '/' := by
  induction t with
  | nil => rfl
  | cons x xs ih =>
    by_cases slash : x = '/'
    · subst slash
      simp [List.splitOn, List.splitOnP_cons]
    · have other : (x != '/') = true := by simpa using slash
      simp only [List.splitOn, List.splitOnP_cons, beq_iff_eq, slash, if_false, List.takeWhile_cons, other,
        List.dropWhile_cons] at ih ⊢
      rw [ih]
      rfl

theorem pathSegments_dropWhile (s : List Char) :
    pathSegments (s.dropWhile (· != '/')) =
      match s.dropWhile (· != '/') with
      | [] => []
      | _ :: u => u.splitOn '/' := by
  cases rest : s.dropWhile (· != '/') with
  | nil => rfl
  | cons c u =>
    have stop := List.head_dropWhile_not (· != '/') s (by simp [rest])
    simp only [rest, List.head_cons, bne_eq_false_iff_eq] at stop
    simp [pathSegments, stop]

/-- strchrnul(path + i, '/'): the index of the first '/' from `i` on, or of the NUL. -/
def strchrnul (path : List Char) (i : Nat) : Nat :=
  i + ((path.drop i).takeWhile (· != '/')).length

/-- One iteration of the loop of FindEntry and CreateEntry from index `i`: a '/' is skipped,
the name runs to strchrnul, and its length is asserted. The name copied out, whether its
terminator is the NUL, and the index past the name. -/
def walkStep (lim : Limits) (path : List Char) (i : Nat) : Except Abort (List Char × Bool × Nat) :=
  let start := if path.get? i = some '/' then i + 1 else i
  let terminator := strchrnul path start
  let nameLen := terminator - start
  if nameLen = 0 then .error .nameEmpty
  else if lim.entryNameBytes ≤ nameLen then .error .nameTooLong
  else .ok ((path.drop start).take nameLen, terminator = path.length, start + nameLen)

/-- The loop `while (path[i] != '\0')`, for the names it hands to resTree_FindChildEx. The
path holds no NUL, so path[i] is the NUL exactly at its length; each iteration moves `i` past a
name of at least one byte, so the length of the path bounds the iterations. -/
def walkFuel (lim : Limits) (path : List Char) : Nat → Nat → Except Abort (List (List Char × Bool))
  | 0, _ => .ok []
  | fuel + 1, i =>
    if i < path.length then do
      let (name, last, next) ← walkStep lim path i
      let rest ← walkFuel lim path fuel next
      pure ((name, last) :: rest)
    else .ok []

def walkPath (lim : Limits) (path : List Char) : Except Abort (List (List Char × Bool)) :=
  walkFuel lim path path.length 0

def flagLast : List (List Char) → List (List Char × Bool)
  | [] => []
  | name :: rest => (name, rest.isEmpty) :: flagLast rest

def checkedNames (lim : Limits) : List (List Char) → Except Abort (List (List Char × Bool))
  | [] => .ok []
  | name :: rest => do
    checkEntryName lim name
    let more ← checkedNames lim rest
    pure ((name, rest.isEmpty) :: more)

theorem checkedNames_valid :
    ∀ names : List (List Char), (∀ name ∈ names, ValidName lim name) → checkedNames lim names = .ok (flagLast names)
  | [], _ => rfl
  | name :: rest, valid => by
    simp only [checkedNames, checkEntryName_valid (valid name (by simp)),
      checkedNames_valid rest fun n member => valid n (by simp [member])]
    rfl

theorem walkFuel_eq {path : List Char} :
    ∀ fuel i, (path.drop i).length ≤ fuel →
      walkFuel lim path fuel i = checkedNames lim (pathSegments (path.drop i))
  | 0, i, short => by
    rw [List.length_eq_zero.mp (Nat.le_zero.mp short)]
    rfl
  | fuel + 1, i, short => by
    unfold walkFuel
    split
    · rename_i inside
      obtain ⟨start, s, shape, segments, skip⟩ : ∃ start s, path.drop start = s ∧
          pathSegments (path.drop i) = s.splitOn '/' ∧ start = if path.get? i = some '/' then i + 1 else i := by
        cases suffix : path.drop i with
        | nil => exact absurd suffix (by simp; omega)
        | cons c rest =>
          have read : path[i]? = some c := by
            rw [← List.head?_drop, suffix]
            rfl
          by_cases slash : c = '/'
          · refine ⟨i + 1, rest, ?_, by simp [pathSegments, slash], by simp [read, slash]⟩
            rw [← List.drop_drop, suffix]
            rfl
          · exact ⟨i, c :: rest, suffix, by simp [pathSegments, slash], by simp [read, slash]⟩
      obtain ⟨name, w, split, named, rest⟩ : ∃ name w, s = name ++ w ∧ s.takeWhile (· != '/') = name ∧
          s.dropWhile (· != '/') = w := ⟨_, _, (List.takeWhile_append_dropWhile _ _).symm, rfl, rfl⟩
      have lengths := congrArg List.length shape
      rw [split, List.length_drop, List.length_append] at lengths
      have next : path.drop (start + name.length) = w := by
        rw [← List.drop_drop, shape, split, List.drop_left]
      have later := pathSegments_dropWhile s
      rw [rest] at later
      have taken : s.take name.length = name := by rw [split, List.take_left]
      rw [segments, splitOn_takeWhile]
      simp only [walkStep, ← skip, strchrnul, shape, Nat.add_sub_cancel_left, named, rest, taken]
      by_cases empty : name.length = 0
      · simp [empty, checkedNames, checkEntryName]
      by_cases long : lim.entryNameBytes ≤ name.length
      · simp [empty, long, checkedNames, checkEntryName]
      have below : (path.drop (start + name.length)).length ≤ fuel := by
        have := List.length_drop i path
        rw [next]
        split at skip <;> omega
      simp only [empty, long, if_false, checkedNames, checkEntryName, except_bind_ok,
        walkFuel_eq fuel _ below, next, later]
      cases w with
      | nil =>
        have := List.drop_eq_nil_iff.mp next
        rw [decide_eq_true (by omega : start + name.length = path.length)]
        rfl
      | cons c u =>
        have := congrArg List.length next
        rw [List.length_drop, List.length_cons] at this
        rw [decide_eq_false (by omega : start + name.length ≠ path.length)]
        have : (u.splitOn '/').isEmpty = false := by simp [List.splitOn, List.splitOnP_ne_nil]
        simp only [this]
    · rename_i past
      rw [List.drop_eq_nil_iff.mpr (by omega)]
      rfl

/-- The index loop of FindEntry and CreateEntry is the walk over `pathSegments`, asserts
included, on every path. -/
theorem walkPath_eq (path : List Char) : walkPath lim path = checkedNames lim (pathSegments path) :=
  walkFuel_eq _ 0 (by simp)

example : walkPath ⟨16, 64⟩ "a//b".toList = .error .nameEmpty := rfl

theorem walk_hands_out_each_name (fromRoot : Bool) (names : List (List Char))
    (valid : ∀ name ∈ names, ValidName lim name) :
    walkPath lim (joinPath fromRoot names) = .ok (flagLast names) ∧ pathSegments (joinPath fromRoot names) = names := by
  have segments := pathSegments_joinPath fromRoot fun name member => ⟨(valid name member).1, (valid name member).2⟩
  exact ⟨by rw [walkPath_eq, segments, checkedNames_valid names valid], segments⟩

theorem walk_hands_out_each_name_of_root_ab :
    (∀ name ∈ ["a".toList, "b".toList], ValidName ⟨16, 64⟩ name) ∧
    walkPath ⟨16, 64⟩ (joinPath true ["a".toList, "b".toList]) = .ok [("a".toList, false), ("b".toList, true)] ∧
    pathSegments (joinPath true ["a".toList, "b".toList]) = ["a".toList, "b".toList] := by
  have valid : ∀ name ∈ ["a".toList, "b".toList], ValidName ⟨16, 64⟩ name := by
    intro name member
    simp only [List.mem_cons, List.mem_singleton, List.not_mem_nil, or_false] at member
    rcases member with rfl | rfl <;> exact ⟨by decide, by decide, by decide⟩
  exact ⟨valid, walk_hands_out_each_name true _ valid⟩

end Walk

end DataHub
