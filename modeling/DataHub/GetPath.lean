import DataHub.Lookup

/-!
resTree_GetPath renders the path of an entry relative to a base: it climbs to the child of
the base, writes that name (after a '/' when the base is the root), and appends '/' and a
name per level on the way back down, each with le_utf8_Copy into what is left of the buffer.
The buffer is modelled by the string it holds after the call, or as untouched when the call
returns LE_NOT_FOUND, which it does before writing.
-/

namespace DataHub

/-- What resTree_GetPath leaves: its ssize_t result, a byte count or a (negative)
le_result_t, and the string in the buffer. -/
structure PathText where
  result : Except LeResult Nat
  text : Written (List Char)

def getPathFuel (h : Hub) (base : Nat) (fuel size : Nat) (r : Nat) : Except Abort PathText :=
  if r = base then
    if 0 < size then .ok ⟨.ok 0, .wrote []⟩ else .error .pathBufferEmpty
  else
    let e := (h.entries r).getD default
    if e.parentPtr = some base then
      if base = rootPtr then
        match leUtf8Copy ['/'] size with
        | (.ok, _) =>
          match leUtf8Copy e.name (size - 1) with
          | (.ok, t) => .ok ⟨.ok (1 + t.length), .wrote ('/' :: t)⟩
          | (_, t) => .ok ⟨.error .overflow, .wrote ('/' :: t)⟩
        | (_, t) => .ok ⟨.error .overflow, .wrote t⟩
      else
        match leUtf8Copy e.name size with
        | (.ok, t) => .ok ⟨.ok t.length, .wrote t⟩
        | (_, t) => .ok ⟨.error .overflow, .wrote t⟩
    else if r = rootPtr then .ok ⟨.error .notFound, .untouched⟩
    else
      match fuel with
      | 0 => .ok ⟨.error .notFound, .untouched⟩
      | fuel + 1 => do
        let inner ← getPathFuel h base fuel size (e.parentPtr.getD rootPtr)
        match inner.result with
        | .error code => pure ⟨.error code, inner.text⟩
        | .ok len =>
          match leUtf8Copy ['/'] (size - len) with
          | (.ok, _) =>
            match leUtf8Copy e.name (size - len - 1) with
            | (.ok, t) => pure ⟨.ok (len + 1 + t.length), inner.text.map (· ++ '/' :: t)⟩
            | (_, t) => pure ⟨.error .overflow, inner.text.map (· ++ '/' :: t)⟩
          | (_, t) => pure ⟨.error .overflow, inner.text.map (· ++ t)⟩

def resTreeGetPath (h : Hub) (size : Nat) (base r : Nat) : Except Abort PathText :=
  getPathFuel h base (r + 1) size r

/-- Every length GetPath returns is below the buffer size, so the caller one level down, which
subtracts it from the size, never wraps. Each return of a length checks it; no induction. -/
theorem getPathFuel_ok_lt {h : Hub} {base fuel size r len : Nat} {text : Written (List Char)}
    (ok : getPathFuel h base fuel size r = .ok ⟨.ok len, text⟩) : len < size := by
  unfold getPathFuel at ok
  dsimp only at ok
  split_ifs at ok with atBase positive up root
  · cases ok; exact positive
  · split at ok
    · split at ok
      · next _ t named => obtain ⟨rfl, fits⟩ := leUtf8Copy_ok named; cases ok; omega
      · cases ok
    · cases ok
  · split at ok
    · next t named => obtain ⟨rfl, fits⟩ := leUtf8Copy_ok named; cases ok; exact fits
    · cases ok
  · cases ok
  · match fuel, ok with
    | 0, ok => cases ok
    | f + 1, ok =>
      cases inner : getPathFuel h base f size (((h.entries r).getD default).parentPtr.getD rootPtr) with
      | error => simp [inner] at ok
      | ok pt =>
        simp only [inner, except_bind_ok] at ok
        split at ok
        · cases ok
        · split at ok
          · split at ok
            · next _ t named => obtain ⟨rfl, fits⟩ := leUtf8Copy_ok named; cases ok; omega
            · cases ok
          · cases ok

/-- With room for the NUL, resTree_GetPath reaches no assertion: LE_ASSERT(bufferSize > 0) is
its only stop, at the base. -/
theorem getPathFuel_returns (h : Hub) (base : Nat) {size : Nat} (positive : 0 < size) :
    ∀ fuel r, ∃ text, getPathFuel h base fuel size r = .ok text
  | fuel, r => by
    unfold getPathFuel
    dsimp only
    split_ifs
    · exact ⟨_, rfl⟩
    · split
      · split <;> exact ⟨_, rfl⟩
      · exact ⟨_, rfl⟩
    · split <;> exact ⟨_, rfl⟩
    · exact ⟨_, rfl⟩
    · cases fuel with
      | zero => exact ⟨_, rfl⟩
      | succ f =>
        obtain ⟨inner, ok⟩ :=
          getPathFuel_returns h base positive f (((h.entries r).getD default).parentPtr.getD rootPtr)
        simp only [ok, except_bind_ok]
        split
        · exact ⟨_, rfl⟩
        · split
          · split <;> exact ⟨_, rfl⟩
          · exact ⟨_, rfl⟩

end DataHub
