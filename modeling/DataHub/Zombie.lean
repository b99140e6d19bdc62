import DataHub.Returns

/-!
Zombies come only from the snapshotter. resTree_SetDeleted is the one call that sets the DELETED
flag: AddChild links an entry with NEW alone, a conversion gives an entry a resource type or the
empty flags of a detached namespace, the other flag calls leave DELETED as they find it, and a
resurrection clears it. Over a run from resTree_Init in which SetDeleted is never called, no
entry is a zombie, so no walk meets one, and resTree_GetEntry returns on every path.
-/

namespace DataHub

/-- No entry of `h'` is marked deleted unless it was in `h`. -/
def MarksNone (h h' : Hub) : Prop := ∀ x, resTreeIsDeleted h' x = true → resTreeIsDeleted h x = true

section Laws

variable {lim : Limits}

theorem marksNone_laws : BoundaryLaws lim MarksNone where
  trans first second x zombie := first x (second x zombie)
  frame _ same _ _ _ x zombie := by simpa only [resTreeIsDeleted, same] using zombie
  quiet _ same _ _ _ _ x zombie := by simpa only [resTreeIsDeleted, same] using zombie
  tally _ same _ _ x zombie := by simpa only [resTreeIsDeleted, same] using zombie
  notify _ same _ _ x zombie := by simpa only [resTreeIsDeleted, same] using zombie
  link {h} {p} {pe} name wf readParent x zombie := by
    by_cases fresh : x = h.nextRef
    · subst fresh
      simp [resTreeIsDeleted, link_entries wf readParent, (wf.below_next _ _ readParent).ne', freshEntry,
        Entry.flags] at zombie
    · rwa [resTreeIsDeleted_link wf readParent fresh] at zombie
  unlink {h} p r wf x zombie := by
    simp only [resTreeIsDeleted, Hub.unlink, Hub.setEntry_entries, Hub.updateEntry_entries] at zombie ⊢
    split_ifs at zombie with xr xp
    · subst xp
      cases read : h.entries x with
      | none => simp [read] at zombie
      | some e => simpa [read, Entry.flags] using zombie
    · exact zombie
  update {h} {r} {f} wf benign x zombie := by
    simp only [resTreeIsDeleted, Hub.updateEntry_entries] at zombie ⊢
    split_ifs at zombie with xr
    · subst xr
      cases read : h.entries x with
      | none => simp [read] at zombie
      | some e => simpa [read] using (benign e read).2 (by simpa [read] using zombie)
    · exact zombie

end Laws

section Runs

variable {lim : Limits} {h h' : Hub}

def QuietStep (lim : Limits) (h h' : Hub) : Prop :=
  ∃ op plan, (∀ e, op ≠ .setDeleted e) ∧ Op.Step lim op plan h h'

theorem QuietStep.marksNone (wf : WellFormed lim h) (step : QuietStep lim h h') : MarksNone h h' := by
  obtain ⟨op, plan, unmarked, allowed, run⟩ := step
  have wf0 : WellFormed lim { h with allocs := plan } := wf.congr rfl rfl
  have edited : MarksNone { h with allocs := plan } h' := Op.run_edits marksNone_laws wf0 allowed unmarked run
  exact edited

theorem afterCall_quietStep {op : Op} {plan : List Bool} (unmarked : ∀ e, op ≠ .setDeleted e)
    (ok : (runCalls lim [(op, plan)] h).isSome = true) : QuietStep lim h (afterCall lim op plan h) := by
  simp only [runCalls] at ok
  split_ifs at ok with allowed
  · split at ok
    · rename_i h1 ran
      have after : afterCall lim op plan h = h1 := by simp [afterCall, runCalls, allowed, ran]
      exact after ▸ ⟨op, plan, unmarked, allowed, ran⟩
    · cases ok
  · cases ok

theorem zombieFree_of_unmarked (unmarked : ∀ x, resTreeIsDeleted h x = false) :
    ∀ (current : Nat) (names : List (List Char)), zombieFree h current names = true
  | _, [] => rfl
  | current, name :: rest => by
    simp only [zombieFree]
    split
    · simp [unmarked, zombieFree_of_unmarked unmarked _ rest]
    · rfl

theorem quietRun_unmarked (run : Relation.ReflTransGen (QuietStep lim) initialHub h) :
    Reachable lim h ∧ ∀ x, resTreeIsDeleted h x = false := by
  induction run with
  | refl => exact ⟨.init, fun x => by rw [resTreeIsDeleted, initialHub_entries]; split_ifs <;> rfl⟩
  | tail _ step ih =>
    obtain ⟨reach, unmarked⟩ := ih
    obtain ⟨op, plan, quietOp, quiet⟩ := step
    refine ⟨.step op plan reach quiet, fun x => ?_⟩
    cases zombie : resTreeIsDeleted _ x
    · rfl
    · simpa [unmarked] using (QuietStep.marksNone (reachable_wf reach) ⟨op, plan, quietOp, quiet⟩) x zombie

/-- Over every run from resTree_Init in which the snapshotter never calls resTree_SetDeleted, with
any allocation failures: no entry is ever a zombie, and resTree_GetEntry on every live base and
every path returns without reaching an assertion, as does resTree_GetResource once /obs is in
the tree. -/
theorem runs_without_setDeleted_have_no_zombie (run : Relation.ReflTransGen (QuietStep lim) initialHub h) :
    Reachable lim h ∧ (∀ x, resTreeIsDeleted h x = false) ∧
      (∀ base path plan, h.Live base →
        ∃ res h', (resTreeGetEntry lim base path).run { h with allocs := plan } = .ok (res, h')) ∧
      ∀ base path plan o, h.Live base → resTreeFindEntry lim h rootPtr obsName = .ok (some o) →
        ∃ res h', (resTreeGetResource lim base path).run { h with allocs := plan } = .ok (res, h') := by
  obtain ⟨reach, unmarked⟩ := quietRun_unmarked run
  refine ⟨reach, unmarked, fun base path plan live => ?_, fun base path plan o live obs => ?_⟩
  · obtain ⟨res, h', run, -⟩ := resTreeGetEntry_cases reach live plan (zombieFree_of_unmarked unmarked base _)
    exact ⟨res, h', run⟩
  · obtain ⟨res, h', run, -⟩ :=
      resTreeGetResource_returns_of_reachable reach live plan (zombieFree_of_unmarked unmarked base _) obs
    exact ⟨res, h', run⟩

theorem runs_without_setDeleted_have_no_zombie_to_ab :
    Relation.ReflTransGen (QuietStep smallLimits) initialHub hubInputAB ∧
      Reachable smallLimits hubInputAB ∧ (∀ x, resTreeIsDeleted hubInputAB x = false) ∧
      (∀ base path plan, hubInputAB.Live base →
        ∃ res h', (resTreeGetEntry smallLimits base path).run { hubInputAB with allocs := plan } = .ok (res, h')) ∧
      ∀ base path plan o, hubInputAB.Live base → resTreeFindEntry smallLimits hubInputAB rootPtr obsName = .ok (some o) →
        ∃ res h', (resTreeGetResource smallLimits base path).run { hubInputAB with allocs := plan } = .ok (res, h') :=
  have first : QuietStep smallLimits initialHub (afterCall smallLimits (.getResource rootPtr "a/b".toList) [] initialHub) :=
    afterCall_quietStep (fun _ => nofun) rfl
  have second : QuietStep smallLimits (afterCall smallLimits (.getResource rootPtr "a/b".toList) [] initialHub)
      hubInputAB := afterCall_quietStep (fun _ => nofun) rfl
  have run : Relation.ReflTransGen (QuietStep smallLimits) initialHub hubInputAB :=
    (Relation.ReflTransGen.single first).tail second
  ⟨run, runs_without_setDeleted_have_no_zombie run⟩

end Runs

end DataHub
