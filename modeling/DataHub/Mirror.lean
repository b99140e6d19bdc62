import DataHub.Counting

/-!
The admin handlers of the resource tree know it only from the notifications: ADDED when an entry
becomes an Input, an Output or an Observation, REMOVED when resTree_DeleteIO or
resTree_DeleteObservation takes the resource away (`replayChanges`). `MirrorSound` says that
every pair a handler keeps names an entry of the hub of that type whose path resTree_GetPath
renders as the text the handler was given.

Along the runs on which the counts stay covered, a release frees only namespaces, so no entry
leaves an announced type without its REMOVED notification and the mirror stays sound. The Input
freed in `freed_input_stays_in_replay` needs a run off them.
-/

namespace DataHub

section Replay

/-- What a handler of the resource-tree notifications keeps: ADDED inserts the pair, REMOVED
removes it. -/
def replayChanges : List Event → List (Written (List Char) × EntryType) → List (Written (List Char) × EntryType)
  | [], mirror => mirror
  | .treeChange path type .added :: log, mirror => replayChanges log (mirror.insert (path, type))
  | .treeChange path type .removed :: log, mirror => replayChanges log (mirror.erase (path, type))
  | _ :: log, mirror => replayChanges log mirror

theorem replayChanges_append (events : List Event) :
    ∀ (log : List Event) (mirror : List (Written (List Char) × EntryType)),
      replayChanges (log ++ events) mirror = replayChanges events (replayChanges log mirror)
  | [], _ => rfl
  | .treeChange _ _ .added :: log, _ => replayChanges_append events log _
  | .treeChange _ _ .removed :: log, _ => replayChanges_append events log _
  | .placeholderCreated _ _ :: log, _ => replayChanges_append events log _
  | .nodeDeletion _ :: log, _ => replayChanges_append events log _

theorem replayChanges_quiet : ∀ {events : List Event}, (∀ e ∈ events, e.Quiet) →
    ∀ mirror, replayChanges events mirror = mirror
  | [], _, _ => rfl
  | .treeChange _ _ _ :: _, quiet, _ => absurd (quiet _ (List.mem_cons_self _ _)) id
  | .placeholderCreated _ _ :: _, quiet, mirror =>
    replayChanges_quiet (fun e mem => quiet e (List.mem_cons_of_mem _ mem)) mirror
  | .nodeDeletion _ :: _, quiet, mirror =>
    replayChanges_quiet (fun e mem => quiet e (List.mem_cons_of_mem _ mem)) mirror

theorem replayChanges_nodup : ∀ (log : List Event) {mirror : List (Written (List Char) × EntryType)}, mirror.Nodup →
    (replayChanges log mirror).Nodup
  | [], _, nodup => nodup
  | .treeChange path type .added :: log, mirror, nodup => by
    refine replayChanges_nodup log ?_
    by_cases mem : (path, type) ∈ mirror
    · rw [List.insert_of_mem mem]
      exact nodup
    · rw [List.insert_of_not_mem mem]
      exact nodup.cons mem
  | .treeChange _ _ .removed :: log, _, nodup => replayChanges_nodup log (nodup.erase _)
  | .placeholderCreated _ _ :: log, _, nodup => replayChanges_nodup log nodup
  | .nodeDeletion _ :: log, _, nodup => replayChanges_nodup log nodup

theorem replayChanges_removed (log : List Event) (path : Written (List Char)) (type : EntryType) :
    (path, type) ∉ replayChanges (log ++ [.treeChange path type .removed]) [] := by
  rw [replayChanges_append]
  exact (replayChanges_nodup log List.nodup_nil).not_mem_erase

/-- A handler that checks each notification against the pairs it holds: an ADDED of a pair it
holds, or a REMOVED of one it does not, is an error. -/
def replayChecked : List Event → List (Written (List Char) × EntryType) → Option (List (Written (List Char) × EntryType))
  | [], mirror => some mirror
  | .treeChange path type .added :: log, mirror =>
    if (path, type) ∈ mirror then none else replayChecked log ((path, type) :: mirror)
  | .treeChange path type .removed :: log, mirror =>
    if (path, type) ∈ mirror then replayChecked log (mirror.erase (path, type)) else none
  | _ :: log, mirror => replayChecked log mirror

theorem replayChecked_append (events : List Event) :
    ∀ (log : List Event) (mirror : List (Written (List Char) × EntryType)),
      replayChecked (log ++ events) mirror = (replayChecked log mirror).bind (replayChecked events)
  | [], _ => rfl
  | .treeChange path type .added :: log, mirror => by
    by_cases held : (path, type) ∈ mirror
    · simp only [List.cons_append, replayChecked, if_pos held, Option.none_bind]
    · simp only [List.cons_append, replayChecked, if_neg held]
      exact replayChecked_append events log _
  | .treeChange path type .removed :: log, mirror => by
    by_cases held : (path, type) ∈ mirror
    · simp only [List.cons_append, replayChecked, if_pos held]
      exact replayChecked_append events log _
    · simp only [List.cons_append, replayChecked, if_neg held, Option.none_bind]
  | .placeholderCreated _ _ :: log, _ => replayChecked_append events log _
  | .nodeDeletion _ :: log, _ => replayChecked_append events log _

theorem replayChecked_quiet : ∀ {events : List Event}, (∀ e ∈ events, e.Quiet) →
    ∀ mirror, replayChecked events mirror = some mirror
  | [], _, _ => rfl
  | .treeChange _ _ _ :: _, quiet, _ => absurd (quiet _ (List.mem_cons_self _ _)) id
  | .placeholderCreated _ _ :: _, quiet, mirror =>
    replayChecked_quiet (fun e mem => quiet e (List.mem_cons_of_mem _ mem)) mirror
  | .nodeDeletion _ :: _, quiet, mirror =>
    replayChecked_quiet (fun e mem => quiet e (List.mem_cons_of_mem _ mem)) mirror

section Agrees

variable {log : List Event} {path : Written (List Char)} {type : EntryType}

theorem replayChecked_extend {events : List Event} (checked : replayChecked log [] = some (replayChanges log []))
    (next : replayChecked events (replayChanges log []) = some (replayChanges events (replayChanges log []))) :
    replayChecked (log ++ events) [] = some (replayChanges (log ++ events) []) := by
  rw [replayChecked_append, checked, Option.some_bind, next, replayChanges_append]

theorem replayChecked_added (checked : replayChecked log [] = some (replayChanges log []))
    (fresh : (path, type) ∉ replayChanges log []) :
    replayChecked (log ++ [.treeChange path type .added]) [] =
      some (replayChanges (log ++ [.treeChange path type .added]) []) :=
  replayChecked_extend checked (by simp only [replayChecked, replayChanges, if_neg fresh, List.insert_of_not_mem fresh])

theorem replayChecked_removed (checked : replayChecked log [] = some (replayChanges log []))
    (held : (path, type) ∈ replayChanges log []) :
    replayChecked (log ++ [.treeChange path type .removed]) [] =
      some (replayChanges (log ++ [.treeChange path type .removed]) []) :=
  replayChecked_extend checked (by simp only [replayChecked, replayChanges, if_pos held])

end Agrees

/-- The log of `h'` is that of `h` and events the admin handlers are not told of. -/
def QuietLog (h h' : Hub) : Prop := ∃ events, h'.log = h.log ++ events ∧ ∀ e ∈ events, e.Quiet

theorem QuietLog.of_log {h h' : Hub} (same : h'.log = h.log) : QuietLog h h' :=
  ⟨[], by rw [same, List.append_nil], nofun⟩

theorem QuietLog.checked {h h' : Hub} (quiet : QuietLog h h')
    (checked : replayChecked h.log [] = some (replayChanges h.log [])) :
    replayChecked h'.log [] = some (replayChanges h'.log []) := by
  obtain ⟨events, log, silent⟩ := quiet
  rw [log]
  exact replayChecked_extend checked (by rw [replayChecked_quiet silent, replayChanges_quiet silent])

theorem quietLog_laws {lim : Limits} : TallyLaws lim QuietLog where
  trans := fun ⟨first, log₁, quiet₁⟩ ⟨second, log₂, quiet₂⟩ =>
    ⟨first ++ second, by rw [log₂, log₁, List.append_assoc],
      fun e mem => (List.mem_append.mp mem).elim (quiet₁ e) (quiet₂ e)⟩
  frame _ _ _ _ same := .of_log same
  quiet _ _ _ _ log quiet := ⟨_, log, fun e mem => by rw [List.mem_singleton.mp mem]; exact quiet⟩
  tally _ _ _ same := .of_log same
  link _ _ _ := .of_log rfl
  unlink _ _ _ := .of_log rfl
  update _ _ := .of_log rfl

end Replay

section Sound

variable {lim : Limits} {h h' : Hub}

theorem getPathFuel_of_entries (same : h'.entries = h.entries) (base size : Nat) :
    ∀ fuel r, getPathFuel h' base fuel size r = getPathFuel h base fuel size r
  | 0, _ => by unfold getPathFuel; rw [same]
  | fuel + 1, _ => by
    unfold getPathFuel
    simp only [same, getPathFuel_of_entries same base size fuel]

theorem EntryType.Announced.ne_none {t : EntryType} (announced : t.Announced) : t ≠ .none := by
  rcases announced with rfl | rfl | rfl <;> decide

theorem resTreeGetPath_of_evolves (evolves : Evolves h h') (wf : WellFormed lim h) (wf' : WellFormed lim h') {x : Nat}
    (live : h.Live x) (live' : h'.Live x) (size base : Nat) : resTreeGetPath h' size base x = resTreeGetPath h size base x := by
  obtain ⟨e, read⟩ := Option.isSome_iff_exists.mp live
  exact getPathFuel_of_evolves evolves wf' base size _ x live' (wf.below_next x e read)

theorem Hub.live_of_announced {x : Nat} (announced : (typeOf h x).Announced) : h.Live x := by
  obtain ⟨e, read, -⟩ := entry_of_typeOf rfl announced.ne_none
  simp [Hub.Live, read]

def Witnessed (lim : Limits) (h : Hub) (pair : Written (List Char) × EntryType) : Prop :=
  ∃ x rendered, typeOf h x = pair.2 ∧ resTreeGetPath h lim.resourcePathBytes rootPtr x = .ok rendered ∧
    rendered.text = pair.1

/-- Every pair a handler of the notifications keeps is of an announced type and witnessed. -/
def MirrorSound (lim : Limits) (h : Hub) : Prop :=
  ∀ pair ∈ replayChanges h.log [], pair.2.Announced ∧ Witnessed lim h pair

theorem Witnessed.congr {pair : Written (List Char) × EntryType} (witnessed : Witnessed lim h pair)
    (same : h'.entries = h.entries) : Witnessed lim h' pair := by
  obtain ⟨x, rendered, typed, rendering, text⟩ := witnessed
  refine ⟨x, rendered, by rw [typeOf, same]; exact typed, ?_, text⟩
  rw [resTreeGetPath, getPathFuel_of_entries same]
  exact rendering

theorem MirrorSound.congr (sound : MirrorSound lim h) (same : h'.entries = h.entries) (log : h'.log = h.log) :
    MirrorSound lim h' := fun pair mem =>
  have kept := sound pair (log ▸ mem)
  ⟨kept.1, kept.2.congr same⟩

theorem initialHub_mirrorSound : MirrorSound lim initialHub := nofun

theorem MirrorSound.transfer (sound : MirrorSound lim h) (wf : WellFormed lim h) (wf' : WellFormed lim h')
    (evolves : Evolves h h') (quiet : QuietLog h h')
    (stays : ∀ x rendered, resTreeGetPath h lim.resourcePathBytes rootPtr x = .ok rendered →
      (rendered.text, typeOf h x) ∈ replayChanges h.log [] → ResourceStays h h' x) :
    MirrorSound lim h' := by
  obtain ⟨events, log, silent⟩ := quiet
  intro pair mem
  rw [log, replayChanges_append, replayChanges_quiet silent] at mem
  obtain ⟨announced, x, rendered, typed, rendering, text⟩ := sound pair mem
  have kept : typeOf h' x = pair.2 :=
    (stays x rendered rendering (by rw [text, typed]; exact mem) (.inl (typed ▸ announced))).trans typed
  refine ⟨announced, x, rendered, kept, ?_, text⟩
  rw [resTreeGetPath_of_evolves evolves wf wf' (Hub.live_of_announced (typed ▸ announced))
    (Hub.live_of_announced (kept ▸ announced))]
  exact rendering

theorem MirrorSound.added (sound : MirrorSound lim h) {e : Nat} {t : EntryType} {rendered : PathText}
    (announced : t.Announced) (typed : typeOf h e = t)
    (rendering : resTreeGetPath h lim.resourcePathBytes rootPtr e = .ok rendered) :
    MirrorSound lim { h with log := h.log ++ [.treeChange rendered.text t .added] } := by
  intro pair mem
  rw [replayChanges_append] at mem
  rcases List.mem_insert_iff.mp mem with rfl | old
  · exact ⟨announced, Witnessed.congr (⟨e, rendered, typed, rendering, rfl⟩ : Witnessed lim h (rendered.text, t)) rfl⟩
  · exact (sound pair old).imp_right fun witnessed => witnessed.congr rfl

theorem MirrorSound.removed (sound : MirrorSound lim h) (path : Written (List Char)) (t : EntryType) :
    MirrorSound lim { h with log := h.log ++ [.treeChange path t .removed] } := by
  intro pair mem
  rw [replayChanges_append] at mem
  exact (sound pair (List.mem_of_mem_erase mem)).imp_right fun witnessed => witnessed.congr rfl

theorem MirrorSound.convert (sound : MirrorSound lim h) (wf : WellFormed lim h) (wf' : WellFormed lim h')
    {e : Nat} {t : EntryType} (placeholder : typeOf h e = .placeholder) (announced : t.Announced)
    (run : (callResourceTreeChangeHandlers lim e t .added).run (h.updateEntry e fun x => { x with type := t }) =
      .ok ((), h')) : MirrorSound lim h' := by
  obtain ⟨rendered, rendering, rfl⟩ := callResourceTreeChangeHandlers_frame run
  obtain ⟨pe, read, -⟩ := entry_of_typeOf placeholder (by decide)
  have converted : MirrorSound lim (h.updateEntry e fun x => { x with type := t }) :=
    sound.transfer wf (wf'.congr rfl rfl) (Evolves.updateEntry wf fun x _ => ⟨rfl, rfl, id⟩) (.of_log rfl)
      fun x _ _ mem => ResourceStays.updateEntry fun same _ _ _ =>
        absurd (sound _ mem).1 (by rw [same, placeholder]; exact (by decide : ¬EntryType.placeholder.Announced))
  exact converted.added announced (typeOf_updateEntry_self read) rendering

theorem MirrorSound.removed_transfer {entry : Nat} {h1 : Hub} (sound : MirrorSound lim h) (wf : WellFormed lim h)
    (wf' : WellFormed lim h') (notified : (callResourceTreeChangeHandlers lim entry (typeOf h entry) .removed).run h =
      .ok ((), h1))
    (evolves : Evolves h1 h') (quiet : QuietLog h1 h') (stays : ∀ x, x ≠ entry → ResourceStays h h' x) :
    MirrorSound lim h' := by
  obtain ⟨rendered, rendering, same⟩ := callResourceTreeChangeHandlers_frame notified
  have entries1 : h1.entries = h.entries := by rw [same]
  have sound1 : MirrorSound lim h1 := by rw [same]; exact sound.removed rendered.text (typeOf h entry)
  refine sound1.transfer (wf.congr entries1 (by rw [same])) wf' evolves quiet fun x rendered' rendering' mem => ?_
  by_cases other : x = entry
  · subst other
    rw [resTreeGetPath, getPathFuel_of_entries entries1, ← resTreeGetPath, rendering] at rendering'
    cases rendering'
    rw [same] at mem
    exact absurd mem (replayChanges_removed h.log _ _)
  · exact (ResourceStays.of_entries entries1.symm).trans (stays x other)

end Sound

section Complete

variable {lim : Limits} {h h' : Hub}

/-- Every entry of an announced type is in the mirror, with its type and the text GetPath
renders for it. -/
def MirrorComplete (lim : Limits) (h : Hub) : Prop :=
  ∀ x rendered, (typeOf h x).Announced → resTreeGetPath h lim.resourcePathBytes rootPtr x = .ok rendered →
    (rendered.text, typeOf h x) ∈ replayChanges h.log []

/-- The path of every Input, Output and Observation fits the buffer of
CallResourceTreeChangeHandlers. -/
def PathsFit (lim : Limits) (h : Hub) : Prop :=
  ∀ x, (typeOf h x).Announced → ∃ len text, resTreeGetPath h lim.resourcePathBytes rootPtr x = .ok ⟨.ok len, .wrote text⟩

theorem MirrorComplete.congr (complete : MirrorComplete lim h) (same : h'.entries = h.entries) (log : h'.log = h.log) :
    MirrorComplete lim h' := fun x rendered announced rendering => by
  have typed : typeOf h' x = typeOf h x := by rw [typeOf, typeOf, same]
  rw [typed, log]
  exact complete x rendered (typed ▸ announced) ((getPathFuel_of_entries same _ _ _ _).symm.trans rendering)

theorem PathsFit.congr (fits : PathsFit lim h) (same : h'.entries = h.entries) : PathsFit lim h' := fun x announced => by
  have typed : typeOf h' x = typeOf h x := by rw [typeOf, typeOf, same]
  rw [resTreeGetPath, getPathFuel_of_entries same]
  exact fits x (typed ▸ announced)

theorem initialHub_unannounced (x : Nat) : ¬(typeOf initialHub x).Announced := by
  rw [typeOf, initialHub_entries]
  split_ifs <;> decide

theorem initialHub_mirrorComplete : MirrorComplete lim initialHub :=
  fun x _ announced => absurd announced (initialHub_unannounced x)

theorem MirrorComplete.transfer (complete : MirrorComplete lim h) (wf : WellFormed lim h) (wf' : WellFormed lim h')
    (evolves : Evolves h h') (quiet : QuietLog h h') (stays : ∀ x, ResourceStays h h' x) : MirrorComplete lim h' := by
  obtain ⟨events, log, silent⟩ := quiet
  intro x rendered announced rendering
  have typed := stays x (.inr announced)
  rw [log, replayChanges_append, replayChanges_quiet silent, typed]
  rw [typed] at announced
  refine complete x rendered announced ?_
  rw [← rendering, resTreeGetPath_of_evolves evolves wf wf' (Hub.live_of_announced announced)
    (Hub.live_of_announced (typed ▸ announced))]

theorem MirrorComplete.convert (complete : MirrorComplete lim h) (wf : WellFormed lim h) (wf' : WellFormed lim h')
    {e : Nat} {t : EntryType} (placeholder : typeOf h e = .placeholder)
    (run : (callResourceTreeChangeHandlers lim e t .added).run (h.updateEntry e fun x => { x with type := t }) =
      .ok ((), h')) : MirrorComplete lim h' := by
  obtain ⟨rendered, rendering, same⟩ := callResourceTreeChangeHandlers_frame run
  have entries' : h'.entries = (h.updateEntry e fun x => { x with type := t }).entries := by rw [same]
  have log' : h'.log = h.log ++ [.treeChange rendered.text t .added] := by rw [same]; rfl
  obtain ⟨pe, read, -⟩ := entry_of_typeOf placeholder (by decide)
  intro x rendered' announced rendering'
  rw [resTreeGetPath, getPathFuel_of_entries entries', ← resTreeGetPath] at rendering'
  rw [typeOf, entries', ← typeOf] at announced ⊢
  rw [log', replayChanges_append]
  by_cases target : x = e
  · subst target
    rw [rendering] at rendering'
    cases rendering'
    rw [typeOf_updateEntry_self read]
    exact List.mem_insert_self _ _
  · have typed : typeOf (h.updateEntry e fun x => { x with type := t }) x = typeOf h x :=
      (ResourceStays.updateEntry fun same => absurd same target : ResourceStays h _ x) (.inr announced)
    rw [typed] at announced ⊢
    have evolves : Evolves h (h.updateEntry e fun x => { x with type := t }) :=
      Evolves.updateEntry wf fun _ _ => ⟨rfl, rfl, id⟩
    refine List.mem_insert_of_mem (complete x rendered' announced ?_)
    rw [← rendering', resTreeGetPath_of_evolves evolves wf (wf'.congr entries'.symm (by rw [same]))
      (Hub.live_of_announced announced) (Hub.live_of_announced (typed ▸ announced))]

/-- A REMOVED notification on a tree whose resource paths fit, and a tail after which only the
deleted entry has left its announced type: every other entry keeps its pair, which the REMOVED
pair is not, since the paths of two entries that fit are two texts. -/
theorem MirrorComplete.removed_transfer {entry : Nat} {h1 : Hub} (complete : MirrorComplete lim h)
    (wf : WellFormed lim h) (wf' : WellFormed lim h') (fits : PathsFit lim h) (deleted : (typeOf h entry).Announced)
    (notified : (callResourceTreeChangeHandlers lim entry (typeOf h entry) .removed).run h = .ok ((), h1))
    (evolves : Evolves h1 h') (quiet : QuietLog h1 h') (stays : ∀ x, x ≠ entry → ResourceStays h h' x)
    (gone : ¬(typeOf h' entry).Announced) : MirrorComplete lim h' := by
  obtain ⟨rendered, rendering, same⟩ := callResourceTreeChangeHandlers_frame notified
  have entries1 : h1.entries = h.entries := by rw [same]
  have log1 : h1.log = h.log ++ [.treeChange rendered.text (typeOf h entry) .removed] := by rw [same]
  obtain ⟨events, log, silent⟩ := quiet
  intro x rendered' announced rendering'
  have other : x ≠ entry := fun xe => gone (xe ▸ announced)
  have typed := stays x other (.inr announced)
  rw [typed] at announced ⊢
  have renderedX : resTreeGetPath h lim.resourcePathBytes rootPtr x = .ok rendered' := by
    rw [← rendering', resTreeGetPath_of_evolves evolves (wf.congr entries1 (by rw [same])) wf'
      (by rw [Hub.Live, entries1]; exact Hub.live_of_announced announced) (Hub.live_of_announced (typed ▸ announced))]
    exact (getPathFuel_of_entries entries1 _ _ _ _).symm
  rw [log, log1, replayChanges_append, replayChanges_quiet silent, replayChanges_append]
  refine (List.mem_erase_of_ne fun pair => other ?_).mpr (complete x rendered' announced renderedX)
  obtain ⟨lx, tx, fitsX⟩ := fits x announced
  obtain ⟨le, te, fitsEntry⟩ := fits entry deleted
  rw [renderedX] at fitsX
  rw [rendering] at fitsEntry
  cases fitsX
  cases fitsEntry
  obtain rfl := Written.wrote.inj (Prod.mk.inj pair).1
  exact resTreeGetPath_injective wf (Hub.live_of_announced announced) (Hub.live_of_announced deleted) renderedX rendering

/-- The pair of the ADDED notification for a converted placeholder is one the handlers do not
hold yet, when the paths fit after the conversion: an entry witnessing the pair would render as
the converted placeholder does, and the paths of two entries that fit are two texts. -/
theorem MirrorSound.fresh (sound : MirrorSound lim h) (wf : WellFormed lim h) {e : Nat} {t : EntryType}
    {rendered : PathText} (wf' : WellFormed lim (h.updateEntry e fun x => { x with type := t }))
    (placeholder : typeOf h e = .placeholder) (announced : t.Announced)
    (rendering : resTreeGetPath (h.updateEntry e fun x => { x with type := t }) lim.resourcePathBytes rootPtr e =
      .ok rendered)
    (fits : PathsFit lim (h.updateEntry e fun x => { x with type := t })) :
    (rendered.text, t) ∉ replayChanges h.log [] := fun mem => by
  obtain ⟨-, x, r, typed, renderingX, text⟩ := sound _ mem
  dsimp only at typed text
  obtain ⟨pe, read, -⟩ := entry_of_typeOf placeholder (by decide)
  have other : x ≠ e := by
    rintro rfl
    rw [placeholder] at typed
    subst typed
    exact absurd announced (by decide)
  have announcedX : (typeOf (h.updateEntry e fun x => { x with type := t }) x).Announced := by
    simpa [typeOf, other, ← typed] using announced
  have announcedE : (typeOf (h.updateEntry e fun x => { x with type := t }) e).Announced := by
    rwa [typeOf_updateEntry_self read]
  have renderX : resTreeGetPath (h.updateEntry e fun x => { x with type := t }) lim.resourcePathBytes rootPtr x =
      .ok r := by
    have evolves : Evolves h (h.updateEntry e fun x => { x with type := t }) :=
      Evolves.updateEntry wf fun _ _ => ⟨rfl, rfl, id⟩
    rw [resTreeGetPath_of_evolves evolves wf wf' (Hub.live_of_announced (typed ▸ announced))
      (Hub.live_of_announced announcedX)]
    exact renderingX
  obtain ⟨lx, tx, fitsX⟩ := fits x announcedX
  obtain ⟨le, te, fitsE⟩ := fits e announcedE
  rw [renderX] at fitsX
  rw [rendering] at fitsE
  cases fitsX
  cases fitsE
  obtain rfl := Written.wrote.inj text
  exact other (resTreeGetPath_injective wf' (Hub.live_of_announced announcedX) (Hub.live_of_announced announcedE)
    renderX rendering)

end Complete

section Calls

variable {lim : Limits} {h h' : Hub}

/-- A call that tells the admin handlers nothing, after which every entry has an announced type
exactly when it had one, and the same one. -/
structure QuietCall (h h' : Hub) : Prop where
  evolves : Evolves h h'
  quiet : QuietLog h h'
  stays : ∀ x, ResourceStays h h' x

theorem QuietCall.mirror (call : QuietCall h h') (wf : WellFormed lim h) (wf' : WellFormed lim h')
    (sound : MirrorSound lim h) :
    MirrorSound lim h' ∧ (PathsFit lim h → MirrorComplete lim h → MirrorComplete lim h') :=
  ⟨sound.transfer wf wf' call.evolves call.quiet fun x _ _ _ => call.stays x,
    fun _ complete => complete.transfer wf wf' call.evolves call.quiet call.stays⟩

/-- What one call tells the admin handlers: nothing, after a call that keeps each announced type;
the ADDED notification of a placeholder that resTree_GetResource left and the call converted; or
the REMOVED notification of a resource, after which the call takes away its type and no other. -/
inductive Announces (lim : Limits) (h h' : Hub) : Prop
  | quiet (call : QuietCall h h')
  | converts {h1 : Hub} {e : Nat} {t : EntryType} (call : QuietCall h h1) (wf1 : WellFormed lim h1)
      (placeholder : typeOf h1 e = .placeholder) (announced : t.Announced)
      (notified : (callResourceTreeChangeHandlers lim e t .added).run (h1.updateEntry e fun x => { x with type := t }) =
        .ok ((), h'))
  | removes {h1 : Hub} {entry : Nat} (deleted : (typeOf h entry).Announced)
      (notified : (callResourceTreeChangeHandlers lim entry (typeOf h entry) .removed).run h = .ok ((), h1))
      (evolves : Evolves h1 h') (quiet : QuietLog h1 h') (stays : ∀ x, x ≠ entry → ResourceStays h h' x)
      (gone : ¬(typeOf h' entry).Announced)

theorem Announces.mirror (announces : Announces lim h h') (wf : WellFormed lim h) (wf' : WellFormed lim h')
    (sound : MirrorSound lim h) :
    MirrorSound lim h' ∧ (PathsFit lim h → MirrorComplete lim h → MirrorComplete lim h') := by
  cases announces with
  | quiet call => exact call.mirror wf wf' sound
  | converts call wf1 placeholder announced notified =>
    obtain ⟨sound1, complete1⟩ := call.mirror wf wf1 sound
    exact ⟨sound1.convert wf1 wf' placeholder announced notified,
      fun fits complete => (complete1 fits complete).convert wf1 wf' placeholder notified⟩
  | removes deleted notified evolves quiet stays gone =>
    exact ⟨sound.removed_transfer wf wf' notified evolves quiet stays,
      fun fits complete => complete.removed_transfer wf wf' fits deleted notified evolves quiet stays gone⟩

theorem Announces.checked (announces : Announces lim h h') (wf : WellFormed lim h) (wf' : WellFormed lim h')
    (sound : MirrorSound lim h) (complete : MirrorComplete lim h) (fits' : PathsFit lim h')
    (checked : replayChecked h.log [] = some (replayChanges h.log [])) :
    replayChecked h'.log [] = some (replayChanges h'.log []) := by
  cases announces with
  | quiet call => exact call.quiet.checked checked
  | converts call wf1 placeholder announced notified =>
    obtain ⟨rendered, rendering, rfl⟩ := callResourceTreeChangeHandlers_frame notified
    have fresh := (call.mirror wf wf1 sound).1.fresh wf1 (wf'.congr rfl rfl) placeholder announced rendering
      (fits'.congr rfl)
    exact replayChecked_added (call.quiet.checked checked) fresh
  | removes deleted notified evolves quiet stays gone =>
    obtain ⟨rendered, rendering, rfl⟩ := callResourceTreeChangeHandlers_frame notified
    exact quiet.checked (replayChecked_removed checked (complete _ _ deleted rendering))

theorem announces_of_getResource {base : Nat} {path : List Char} {t : EntryType} {res : LeResult × Option Nat}
    {h1 : Hub} (announced : t.Announced) (wf : WellFormed lim h)
    (positive : ∀ r e, h.entries r = some e → 0 < e.refCount) (live : h.Live base)
    (clear : zombieFree h base (pathSegments path) = true) (counted : Counted h)
    (spare : ∀ r, resTreeFindEntry lim h base path = .ok (some r) → typeOf h r = .«namespace» → Spare h r)
    (got : (resTreeGetResource lim base path).run h = .ok (res, h1))
    (converted : h' = h1 ∨ ∃ e, typeOf h1 e = .placeholder ∧
      (callResourceTreeChangeHandlers lim e t .added).run (h1.updateEntry e fun x => { x with type := t }) =
        .ok ((), h')) :
    Announces lim h h' := by
  have call : QuietCall h h1 := ⟨resTreeGetResource_edits evolves_laws.toEditLaws wf live got,
    resTreeGetResource_edits quietLog_laws.toEditLaws wf live got,
    (resTreeGetResource_counted wf positive live clear counted spare got).2⟩
  rcases converted with rfl | ⟨e, placeholder, notified⟩
  · exact .quiet call
  · exact .converts call (resTreeGetResource_wf wf live got) placeholder announced notified

theorem resTreeCreateIo_announces {type : EntryType} {base : Nat} {path : List Char} {ret : LeResult}
    (announced : type.Announced) (wf : WellFormed lim h) (positive : ∀ r e, h.entries r = some e → 0 < e.refCount)
    (live : h.Live base) (clear : zombieFree h base (pathSegments path) = true) (counted : Counted h)
    (spare : ∀ r, resTreeFindEntry lim h base path = .ok (some r) → typeOf h r = .«namespace» → Spare h r)
    (run : (resTreeCreateIo type lim base path).run h = .ok (ret, h')) : Announces lim h h' := by
  unfold resTreeCreateIo at run
  obtain ⟨⟨ret, entry?⟩, h1, got, run⟩ := run_bind_eq_ok run
  refine announces_of_getResource announced wf positive live clear counted spare got ?_
  dsimp only at run
  split at run
  · rw [run_get_bind] at run
    obtain ⟨placeholder, run⟩ := run_check_bind_eq_ok run
    rw [run_updateEntry_bind] at run
    obtain ⟨⟨⟩, h2, notified, finished⟩ := run_bind_eq_ok run
    cases finished
    exact .inr ⟨_, beq_iff_eq.mp placeholder, notified⟩
  · cases run
    exact .inl rfl

theorem resTreeGetObservation_announces {base : Nat} {path : List Char} {res : LeResult × Written Nat}
    (wf : WellFormed lim h) (positive : ∀ r e, h.entries r = some e → 0 < e.refCount)
    (live : h.Live base) (clear : zombieFree h base (pathSegments path) = true) (counted : Counted h)
    (spare : ∀ r, resTreeFindEntry lim h base path = .ok (some r) → typeOf h r = .«namespace» → Spare h r)
    (run : (resTreeGetObservation lim base path).run h = .ok (res, h')) : Announces lim h h' := by
  unfold resTreeGetObservation at run
  obtain ⟨⟨ret, entry?⟩, h1, got, run⟩ := run_bind_eq_ok run
  refine announces_of_getResource (.inr (.inr rfl)) wf positive live clear counted spare got ?_
  dsimp only at run
  split at run
  · rw [run_get_bind] at run
    split at run
    · rename_i placeholder
      rw [run_updateEntry_bind] at run
      obtain ⟨⟨⟩, h2, notified, finished⟩ := run_bind_eq_ok run
      cases finished
      exact .inr ⟨_, beq_iff_eq.mp placeholder, notified⟩
    · split at run <;> cases run <;> exact .inl rfl
  · cases run
    exact .inl rfl

theorem resTreeDeleteIo_announces (hasAdminSettings keep : Bool) {entry : Nat} (wf : WellFormed lim h)
    (counted : Counted h) (resource : typeOf h entry = .input ∨ typeOf h entry = .output)
    (run : (resTreeDeleteIo hasAdminSettings keep lim entry).run h = .ok ((), h')) : Announces lim h h' := by
  have deleting := run
  unfold resTreeDeleteIo at deleting
  rw [run_get_bind] at deleting
  obtain ⟨⟨⟩, h1, notified, rest⟩ := run_bind_eq_ok deleting
  have wf1 := callResourceTreeChangeHandlers_wf wf notified
  have tail : ∀ {R : Hub → Hub → Prop}, TallyLaws lim R → R h1 h' := fun laws => by
    split at rest
    · cases rest
      exact laws.update wf1 fun e _ => ⟨Entry.Continues.refl e, fun zombie => by simp at zombie⟩
    · exact detachAndRelease_edits laws wf1 rest
  obtain ⟨-, stays, gone⟩ := holds_of_returns (resTreeDeleteIo_counted hasAdminSettings keep wf counted resource notified) run
  exact .removes (by rcases resource with typed | typed <;> rw [typed] <;> decide) notified
    (tail evolves_laws.toTallyLaws) (tail quietLog_laws) stays gone

theorem resTreeDeleteObservation_announces (keep : Bool) {entry : Nat} (wf : WellFormed lim h) (counted : Counted h)
    (observation : typeOf h entry = .observation)
    (run : (resTreeDeleteObservation keep lim entry).run h = .ok ((), h')) : Announces lim h h' := by
  obtain ⟨⟨⟩, h1, notified, rest⟩ := run_bind_eq_ok (run : (resTreeDeleteObservation keep lim entry).run h = _)
  have wf1 := callResourceTreeChangeHandlers_wf wf notified
  obtain ⟨-, stays, gone⟩ := holds_of_returns (resTreeDeleteObservation_counted keep wf counted observation notified) run
  rw [← observation] at notified
  exact .removes (by rw [observation]; decide) notified (detachAndRelease_edits evolves_laws.toTallyLaws wf1 rest)
    (detachAndRelease_edits quietLog_laws wf1 rest) stays gone

end Calls

section Runs

variable {lim : Limits} {h h' : Hub}

theorem Op.run_announces {op : Op} (wf : WellFormed lim h) (positive : ∀ r e, h.entries r = some e → 0 < e.refCount)
    (allowed : op.Allowed h) (keeps : op.KeepsCounts lim h) (counted : Counted h)
    (run : (op.run lim).run h = .ok ((), h')) : Announces lim h h' := by
  have evolves := Op.run_evolves wf allowed run
  cases op with
  | getEntry base path =>
    obtain ⟨_, run⟩ := run_discard_eq_ok run
    exact .quiet ⟨evolves, resTreeGetEntry_edits quietLog_laws.toPoolLaws wf allowed run,
      (resTreeGetEntry_counted wf positive allowed keeps counted run).2.2⟩
  | getResource base path =>
    obtain ⟨_, run⟩ := run_discard_eq_ok run
    exact .quiet ⟨evolves, resTreeGetResource_edits quietLog_laws.toEditLaws wf allowed run,
      (resTreeGetResource_counted wf positive allowed keeps.1 counted keeps.2 run).2⟩
  | createInput base path =>
    obtain ⟨_, run⟩ := run_discard_eq_ok run
    exact resTreeCreateIo_announces (.inl rfl) wf positive allowed keeps.1 counted keeps.2 run
  | createOutput base path =>
    obtain ⟨_, run⟩ := run_discard_eq_ok run
    exact resTreeCreateIo_announces (.inr (.inl rfl)) wf positive allowed keeps.1 counted keeps.2 run
  | getObservation base path =>
    obtain ⟨_, run⟩ := run_discard_eq_ok run
    exact resTreeGetObservation_announces wf positive allowed keeps.1 counted keeps.2 run
  | deleteIo entry hasAdminSettings keep => exact resTreeDeleteIo_announces hasAdminSettings keep wf counted allowed run
  | deleteObservation entry keep => exact resTreeDeleteObservation_announces keep wf counted allowed run
  | setDeleted entry =>
    have marked : (resTreeSetDeleted entry).run h = .ok ((), h') := run
    refine .quiet ⟨evolves, .of_log ?_, (resTreeSetDeleted_counted counted run).2⟩
    simp only [resTreeSetDeleted, run_get_bind] at marked
    obtain ⟨-, marked⟩ := run_check_bind_eq_ok marked
    obtain ⟨-, marked⟩ := run_check_bind_eq_ok marked
    cases marked
    rfl
  | setRelevance entry relevant =>
    exact .quiet ⟨evolves, onNamespace_edits quietLog_laws.toPoolLaws wf run fun _ => rfl,
      (onNamespace_counted counted run).2⟩
  | setClearNewnessFlag entry =>
    exact .quiet ⟨evolves, onNamespace_edits quietLog_laws.toPoolLaws wf run fun _ => rfl,
      (onNamespace_counted counted run).2⟩
  | clearNewness entry =>
    exact .quiet ⟨evolves, onNamespace_edits quietLog_laws.toPoolLaws wf run fun _ => rfl,
      (onNamespace_counted counted run).2⟩
  | snapshotRelease entry =>
    exact .quiet ⟨evolves, snapshotRelease_edits quietLog_laws wf run,
      (holds_of_returns (snapshotRelease_counted wf counted allowed.1 allowed.2) run).2⟩

section Step

variable {op : Op} {plan : List Bool} (reach : Reachable lim h) (keeps : op.KeepsCounts lim h) (counted : Counted h)
  (step : op.Step lim plan h h')
include reach keeps counted step

theorem Op.Step.announces : Announces lim { h with allocs := plan } h' :=
  Op.run_announces ((reachable_wf reach).congr rfl rfl) (fun r e read => reachable_counted reach r e read) step.1
    (keeps.allocs plan) (counted.congr rfl rfl) step.2

theorem Op.Step.mirror (sound : MirrorSound lim h) :
    MirrorSound lim h' ∧ (PathsFit lim h → MirrorComplete lim h → MirrorComplete lim h') :=
  have wf0 : WellFormed lim { h with allocs := plan } := (reachable_wf reach).congr rfl rfl
  have mirror := (step.announces reach keeps counted).mirror wf0 (Op.run_wf wf0 step.1 step.2) (sound.congr rfl rfl)
  ⟨mirror.1, fun fits complete => mirror.2 (fits.congr rfl) (complete.congr rfl rfl)⟩

theorem Op.Step.checked (sound : MirrorSound lim h) (complete : MirrorComplete lim h) (fits' : PathsFit lim h')
    (checked : replayChecked h.log [] = some (replayChanges h.log [])) :
    replayChecked h'.log [] = some (replayChanges h'.log []) :=
  have wf0 : WellFormed lim { h with allocs := plan } := (reachable_wf reach).congr rfl rfl
  (step.announces reach keeps counted).checked wf0 (Op.run_wf wf0 step.1 step.2) (sound.congr rfl rfl)
    (complete.congr rfl rfl) fits' checked

end Step

/-- Over every run from resTree_Init along which the counts stay covered, with any allocation
failures: every pair a handler of the resource-tree notifications keeps, inserting on ADDED and
erasing on REMOVED, is of an Input, an Output or an Observation, and an entry of that type is in
the tree, with the path resTree_GetPath renders as the pair's text. -/
theorem runs_keep_mirror_sound (run : Relation.ReflTransGen (CountedStep lim) initialHub h) :
    ∀ pair ∈ replayChanges h.log [], pair.2.Announced ∧ ∃ x rendered, typeOf h x = pair.2 ∧
      resTreeGetPath h lim.resourcePathBytes rootPtr x = .ok rendered ∧ rendered.text = pair.1 := by
  induction run with
  | refl => exact initialHub_mirrorSound
  | tail before step sound =>
    obtain ⟨reach, counted⟩ := countedRun_counted before
    obtain ⟨op, plan, keeps, step⟩ := step
    exact (step.mirror reach keeps counted sound).1

theorem runs_keep_mirror_sound_after_input : Relation.ReflTransGen (CountedStep smallLimits) initialHub hubInputA ∧
    replayChanges hubInputA.log [] = [(.wrote "/a".toList, .input)] ∧
    ∀ pair ∈ replayChanges hubInputA.log [], pair.2.Announced ∧ ∃ x rendered, typeOf hubInputA x = pair.2 ∧
      resTreeGetPath hubInputA smallLimits.resourcePathBytes rootPtr x = .ok rendered ∧ rendered.text = pair.1 :=
  ⟨countedRun_inputA, rfl, runs_keep_mirror_sound countedRun_inputA⟩

theorem fittingRun_mirror
    (run : Relation.ReflTransGen (fun h h' => PathsFit lim h ∧ CountedStep lim h h') initialHub h) :
    MirrorSound lim h ∧ MirrorComplete lim h := by
  induction run with
  | refl => exact ⟨initialHub_mirrorSound, initialHub_mirrorComplete⟩
  | tail before step ih =>
    obtain ⟨reach, counted⟩ := countedRun_counted (before.mono fun _ _ step => step.2)
    obtain ⟨fits, op, plan, keeps, step⟩ := step
    obtain ⟨sound, complete⟩ := step.mirror reach keeps counted ih.1
    exact ⟨sound, complete fits ih.2⟩

/-- Over every run from resTree_Init along which the counts stay covered and each call is made
on a tree whose Inputs, Outputs and Observations have paths that fit HUB_MAX_RESOURCE_PATH_BYTES,
with any allocation failures: the pairs a handler of the resource-tree notifications keeps are
exactly the tree's Inputs, Outputs and Observations, each with its type and the path
resTree_GetPath renders for it. -/
theorem runs_mirror_the_resources
    (run : Relation.ReflTransGen (fun h h' => PathsFit lim h ∧ CountedStep lim h h') initialHub h)
    (path : Written (List Char)) (t : EntryType) :
    (path, t) ∈ replayChanges h.log [] ↔ t.Announced ∧ ∃ x rendered, typeOf h x = t ∧
      resTreeGetPath h lim.resourcePathBytes rootPtr x = .ok rendered ∧ rendered.text = path := by
  obtain ⟨sound, complete⟩ := fittingRun_mirror run
  refine ⟨sound (path, t), ?_⟩
  rintro ⟨announced, x, rendered, typed, rendering, text⟩
  rw [← typed, ← text]
  exact complete x rendered (typed ▸ announced) rendering

theorem WellFormed.unannounced_of_le (wf : WellFormed lim h) {x : Nat} (past : h.nextRef ≤ x) :
    ¬(typeOf h x).Announced := fun announced => by
  obtain ⟨e, read, -⟩ := entry_of_typeOf rfl announced.ne_none
  exact absurd (wf.below_next x e read) (Nat.not_lt.mpr past)

theorem hubPlacedA_unannounced : ∀ x, ¬(typeOf hubPlacedA x).Announced
  | 0 => by decide
  | 1 => by decide
  | 2 => by decide
  | n + 3 => (reachable_wf (countedRun_counted (.single countedStep_placedA)).1).unannounced_of_le
    (by rw [show hubPlacedA.nextRef = 3 by decide]; omega)

theorem hubInputA_pathsFit : PathsFit smallLimits hubInputA
  | 0, announced => absurd announced (by decide)
  | 1, _ => ⟨2, "/a".toList, rfl⟩
  | 2, announced => absurd announced (by decide)
  | n + 3, announced => absurd announced ((reachable_wf (countedRun_counted countedRun_inputA).1).unannounced_of_le
    (by rw [show hubInputA.nextRef = 3 by decide]; omega))

theorem fittingRun_inputA :
    Relation.ReflTransGen (fun h h' => PathsFit smallLimits h ∧ CountedStep smallLimits h h') initialHub hubInputA :=
  (Relation.ReflTransGen.single ⟨fun x announced => absurd announced (initialHub_unannounced x), countedStep_placedA⟩).tail
    ⟨fun x announced => absurd announced (hubPlacedA_unannounced x), countedStep_inputA⟩

theorem runs_mirror_the_resources_after_input :
    Relation.ReflTransGen (fun h h' => PathsFit smallLimits h ∧ CountedStep smallLimits h h') initialHub hubInputA ∧
    replayChanges hubInputA.log [] = [(.wrote "/a".toList, .input)] ∧
    ∀ path t, (path, t) ∈ replayChanges hubInputA.log [] ↔ t.Announced ∧ ∃ x rendered, typeOf hubInputA x = t ∧
      resTreeGetPath hubInputA smallLimits.resourcePathBytes rootPtr x = .ok rendered ∧ rendered.text = path :=
  ⟨fittingRun_inputA, rfl, runs_mirror_the_resources fittingRun_inputA⟩

/-- Over every run from resTree_Init along which the counts stay covered and every tree has
Inputs, Outputs and Observations whose paths fit HUB_MAX_RESOURCE_PATH_BYTES, with any
allocation failures: a handler that checks each notification against the pairs it holds never
finds an ADDED of a pair it holds or a REMOVED of one it does not, and ends holding what a
handler that only inserts and erases holds. -/
theorem runs_notify_each_change_once
    (run : Relation.ReflTransGen (fun h h' => PathsFit lim h ∧ CountedStep lim h h') initialHub h)
    (fits : PathsFit lim h) : replayChecked h.log [] = some (replayChanges h.log []) := by
  induction run with
  | refl => rfl
  | tail before step ih =>
    obtain ⟨reach, counted⟩ := countedRun_counted (before.mono fun _ _ step => step.2)
    obtain ⟨sound, complete⟩ := fittingRun_mirror before
    obtain ⟨fitsBefore, op, plan, keeps, step⟩ := step
    exact step.checked reach keeps counted sound complete fits (ih fitsBefore)

theorem runs_notify_each_change_once_after_input :
    Relation.ReflTransGen (fun h h' => PathsFit smallLimits h ∧ CountedStep smallLimits h h') initialHub hubInputA ∧
    PathsFit smallLimits hubInputA ∧ replayChecked hubInputA.log [] = some [(.wrote "/a".toList, .input)] ∧
    replayChecked hubInputA.log [] = some (replayChanges hubInputA.log []) :=
  ⟨fittingRun_inputA, hubInputA_pathsFit, rfl, runs_notify_each_change_once fittingRun_inputA hubInputA_pathsFit⟩

/-- The run of `repromoted_input_undercounted`, on: "a/b" deleted, the Input "a" is freed with
no REMOVED notification. -/
def hubFreedInputA : Hub := afterCall smallLimits (.deleteIo 2 false false) [] hubInputAgainA

theorem freed_input_stays_in_replay : Reachable smallLimits hubFreedInputA ∧
    replayChanges hubFreedInputA.log [] = [(.wrote "/a".toList, .input)] ∧
    (∀ r < hubFreedInputA.nextRef, typeOf hubFreedInputA r ≠ .input) ∧
    resTreeFindEntry smallLimits hubFreedInputA rootPtr "/a".toList = .ok none :=
  ⟨afterCall_reachable hubInputAgainA_reachable rfl, rfl, by decide, rfl⟩

end Runs

end DataHub
