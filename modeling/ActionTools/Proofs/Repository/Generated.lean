import ActionTools.Proofs.Repository.Linear
import ActionTools.Proofs.Invocation

/-!
# What every run keeps

Whatever calls do to a repository, they do by adding actions and registering overrides. What these
two keep, every run keeps (`Repository.run_induction`), whether or not the digest tells texts apart.

What is kept is where tools come from: the definition and the metadata of each are those generated
for its action, and only the override may differ (`Repository.Generated`); and the action is one
that some call was to add (`Repository.mem_added_run`).
-/

namespace ActionTools

/-- The actions that a call is to add. -/
def Call.added : Call → List Action
  | .add action => [action]
  | .workflow _ _ source => source.actions
  | _ => []

namespace Repository

variable {κ : Type} [BEq κ] [Hashable κ]

/-- **What adding an action does when it succeeds**: nothing when there is its tool already, else
there is one more tool, the one generated but for its override. -/
theorem add_eq_ok {repository next : Repository κ} {action : Action} {inserted : Bool}
    (h : repository.add action = .ok (next, inserted)) :
    ∃ spec, action.generate repository.lookup repository.policy = .ok spec ∧
      ((repository.holds action spec.metadata = true ∧ inserted = false ∧ next = repository) ∨
        (repository.holds action spec.metadata = false ∧ inserted = true ∧
          ∃ override, next = repository.push action { spec with override := override })) := by
  rw [Repository.add] at h
  cases hgenerate : action.generate repository.lookup repository.policy with
  | error failure => rw [hgenerate] at h; cases h
  | ok spec =>
    rw [hgenerate] at h
    refine ⟨spec, rfl, ?_⟩
    dsimp only at h
    cases hholds : repository.holds action spec.metadata with
    | true =>
      rw [hholds, if_pos rfl] at h
      cases h
      exact .inl ⟨rfl, rfl, rfl⟩
    | false =>
      rw [hholds, if_neg Bool.false_ne_true] at h
      split at h
      all_goals
        cases h
        exact .inr ⟨rfl, rfl, _, rfl⟩

section Induction

variable {motive : Repository κ → Prop} {allowed : Action → Prop}
  (hadd : ∀ (repository : Repository κ) (action : Action) (next : Repository κ) (inserted : Bool),
    allowed action → motive repository → repository.add action = .ok (next, inserted) →
      motive next)
  (hoverride : ∀ (repository : Repository κ) (metadata : Metadata) (override : Override),
    motive repository → motive (repository.addOverride metadata override))

include hoverride in
/-- What overrides keep is kept when an action is generated to find the metadata. -/
theorem addOverrideFor_induction {repository next : Repository κ} (h : motive repository)
    {action : Action} {override : Override}
    (hnext : repository.addOverrideFor action override = .ok next) : motive next := by
  rw [addOverrideFor] at hnext
  cases hgenerate : action.generate repository.lookup repository.policy with
  | error failure => rw [hgenerate] at hnext; cases hnext
  | ok spec =>
    rw [hgenerate] at hnext
    cases hnext
    exact hoverride repository spec.metadata override h

include hoverride in
/-- What single overrides keep is kept by any entries, also when one of them fails. -/
theorem registerOverrides_induction {repository : Repository κ} (h : motive repository)
    (entries : List OverrideEntry) : motive (repository.registerOverrides entries).1 := by
  induction entries generalizing repository with
  | nil => exact h
  | cons entry rest ih =>
    rw [registerOverrides]
    split
    · exact ih h
    · cases hnext : repository.addOverrideFor entry.action entry.override with
      | error failure => exact h
      | ok next =>
        have hlast := ih (addOverrideFor_induction hoverride h hnext)
        dsimp only
        split
        · next hrest => rwa [hrest] at hlast
        · next hrest => rwa [hrest] at hlast

include hadd in
/-- What adding keeps is kept by any allowed actions, also when one of them fails. -/
theorem addActions_induction {repository : Repository κ} (h : motive repository)
    (skipScaffolding : Bool) (tally : Tally) {actions : List Action}
    (hactions : ∀ action ∈ actions, allowed action) :
    motive (repository.addActions skipScaffolding tally actions).1 := by
  induction actions generalizing repository tally with
  | nil => exact h
  | cons action rest ih =>
    obtain ⟨haction, hrest⟩ := List.forall_mem_cons.1 hactions
    rw [addActions]
    split
    · exact ih h tally.countSkipped hrest
    · cases hnext : repository.add action with
      | error failure => exact h
      | ok pair =>
        obtain ⟨next, inserted⟩ := pair
        have hkept := hadd repository action next inserted haction h hnext
        cases inserted with
        | true => exact ih hkept tally.countInserted hrest
        | false => exact ih hkept tally.countDuplicate hrest

include hadd hoverride in
/-- **What adding and overriding keep is kept by every call**, as calls do nothing else to a
repository. -/
theorem call_induction {repository : Repository κ} (h : motive repository) {call : Call}
    (hactions : ∀ action ∈ call.added, allowed action) : motive (repository.call call).1 := by
  cases call with
  | add action =>
    rw [Repository.call]
    cases hnext : repository.add action with
    | error failure => exact h
    | ok pair =>
      have haction := hactions action (List.mem_singleton_self action)
      exact hadd repository action pair.1 pair.2 haction h hnext
  | override metadata override => exact hoverride repository metadata override h
  | overrideFor action override =>
    rw [Repository.call]
    cases hnext : repository.addOverrideFor action override with
    | error failure => exact h
    | ok next => exact addOverrideFor_induction hoverride h hnext
  | register entries => exact registerOverrides_induction hoverride h entries
  | workflow skipScaffolding tally source =>
    exact addActions_induction hadd h skipScaffolding tally hactions

include hadd hoverride in
/-- **What adding and registering keep, every run keeps.** -/
theorem run_induction {repository : Repository κ} (h : motive repository) {calls : List Call}
    (hactions : ∀ call ∈ calls, ∀ action ∈ call.added, allowed action) :
    motive (repository.run calls).1 := by
  induction calls generalizing repository with
  | nil => exact h
  | cons call rest ih =>
    obtain ⟨hcall, hrest⟩ := List.forall_mem_cons.1 hactions
    exact ih (call_induction hadd hoverride h hcall) hrest

end Induction

/-! ### Where tools come from -/

/-- Each tool is that of its action but for the override. -/
def Generated (repository : Repository κ) : Prop :=
  ∀ tool ∈ repository.tools.toList, ∃ spec,
    tool.action.generate repository.lookup repository.policy = .ok spec ∧
      tool.spec.definition = spec.definition ∧ tool.spec.metadata = spec.metadata

/-- A tool that was generated, whatever override it got, may come to those that were. -/
theorem Generated.push {repository : Repository κ} (h : repository.Generated) {action : Action}
    {generated spec : Spec}
    (hgenerate : action.generate repository.lookup repository.policy = .ok generated)
    (hdefinition : spec.definition = generated.definition)
    (hmetadata : spec.metadata = generated.metadata) : (repository.push action spec).Generated := by
  intro tool htool
  rw [Repository.push, Array.toList_push] at htool
  rcases List.mem_append.1 htool with hold | hlast
  · exact h tool hold
  · rw [List.mem_singleton.1 hlast]
    exact ⟨generated, hgenerate, hdefinition, hmetadata⟩

/-- Adding an action brings a generated tool or none. -/
theorem Generated.add {repository next : Repository κ} (h : repository.Generated) {action : Action}
    {inserted : Bool} (hnext : repository.add action = .ok (next, inserted)) : next.Generated := by
  obtain ⟨spec, hgenerate, ⟨-, -, rfl⟩ | ⟨-, -, override, rfl⟩⟩ := add_eq_ok hnext
  · exact h
  · exact h.push hgenerate rfl rfl

/-- Overrides change no tool that is there. -/
theorem Generated.addOverride {repository : Repository κ} (h : repository.Generated)
    (metadata : Metadata) (override : Override) :
    (repository.addOverride metadata override).Generated := by
  rw [Repository.addOverride]
  split <;> exact h

/-- **Every tool of a run is that of its action but for the override.** -/
theorem generated_run (digest : String → κ) (toolType : String) (lookup : Lookup)
    (policy : CollisionPolicy) (calls : List Call) :
    ((Repository.new digest toolType lookup policy).run calls).1.Generated :=
  run_induction (fun _ _ _ _ _ h hnext ↦ Generated.add h hnext)
    (fun _ metadata override h ↦ Generated.addOverride h metadata override)
    (by simp [Generated, new]) (fun _ _ _ _ ↦ trivial)

theorem settings_add {repository next : Repository κ} {action : Action} {inserted : Bool}
    (hnext : repository.add action = .ok (next, inserted)) :
    next.lookup = repository.lookup ∧ next.policy = repository.policy := by
  obtain ⟨spec, -, ⟨-, -, rfl⟩ | ⟨-, -, override, rfl⟩⟩ := add_eq_ok hnext
  · exact ⟨rfl, rfl⟩
  · exact ⟨rfl, rfl⟩

theorem settings_addOverride (repository : Repository κ) (metadata : Metadata)
    (override : Override) :
    (repository.addOverride metadata override).lookup = repository.lookup ∧
      (repository.addOverride metadata override).policy = repository.policy := by
  rw [Repository.addOverride]
  split <;> exact ⟨rfl, rfl⟩

/-- A run keeps the tables and the policy it started with. -/
theorem settings_run (repository : Repository κ) (calls : List Call) :
    (repository.run calls).1.lookup = repository.lookup ∧
      (repository.run calls).1.policy = repository.policy := by
  refine @run_induction κ _ _
    (fun next ↦ next.lookup = repository.lookup ∧ next.policy = repository.policy)
    (fun _ ↦ True) ?_ ?_ _ ⟨rfl, rfl⟩ _ (fun _ _ _ _ ↦ trivial)
  · intro current action next inserted _ h hnext
    obtain ⟨hlookup, hpolicy⟩ := settings_add hnext
    exact ⟨hlookup.trans h.1, hpolicy.trans h.2⟩
  · intro current metadata override h
    obtain ⟨hlookup, hpolicy⟩ := settings_addOverride current metadata override
    exact ⟨hlookup.trans h.1, hpolicy.trans h.2⟩

/-- A tool is an old one, or the one of the action that is added. -/
theorem mem_of_add {repository next : Repository κ} {action : Action} {inserted : Bool}
    (hnext : repository.add action = .ok (next, inserted)) {tool : StoredTool}
    (htool : tool ∈ next.tools.toList) : tool ∈ repository.tools.toList ∨ tool.action = action := by
  obtain ⟨spec, -, ⟨-, -, rfl⟩ | ⟨-, -, override, rfl⟩⟩ := add_eq_ok hnext
  · exact .inl htool
  · rw [Repository.push, Array.toList_push] at htool
    exact (List.mem_append.1 htool).imp id fun hlast ↦
      congrArg StoredTool.action (List.mem_singleton.1 hlast)

theorem tools_addOverride (repository : Repository κ) (metadata : Metadata) (override : Override) :
    (repository.addOverride metadata override).tools = repository.tools := by
  rw [Repository.addOverride]
  split <;> rfl

/-- **Every tool of a run is that of an action that some call was to add.** -/
theorem mem_added_run (digest : String → κ) (toolType : String) (lookup : Lookup)
    (policy : CollisionPolicy) (calls : List Call) :
    ∀ tool ∈ ((Repository.new digest toolType lookup policy).run calls).1.tools.toList,
      ∃ call ∈ calls, tool.action ∈ call.added := by
  refine @run_induction κ _ _
    (fun repository ↦ ∀ tool ∈ repository.tools.toList, ∃ call ∈ calls, tool.action ∈ call.added)
    (fun action ↦ ∃ call ∈ calls, action ∈ call.added) ?_ ?_ _ ?_ _ ?_
  · intro repository action next inserted haction h hnext tool htool
    rcases mem_of_add hnext htool with hold | rfl
    · exact h tool hold
    · exact haction
  · intro repository metadata override h tool htool
    rw [tools_addOverride] at htool
    exact h tool htool
  · simp [new]
  · exact fun call hcall action haction ↦ ⟨call, hcall, haction⟩

/-- **Every tool of a compiled catalog** has been generated, with the tables and the policy of the
repository, for an action that some call was to add. Only its override may be another. -/
theorem exists_generate_of_mem_catalog (digest : String → κ) (toolType : String) (lookup : Lookup)
    (policy : CollisionPolicy) (calls : List Call) {tagged : TaggedSpec}
    (h : tagged ∈ ((Repository.new digest toolType lookup policy).run calls).1.catalog.specs) :
    ∃ call ∈ calls, ∃ action ∈ call.added, ∃ spec, action.generate lookup policy = .ok spec ∧
      tagged.spec.definition = spec.definition ∧ tagged.spec.metadata = spec.metadata := by
  obtain ⟨tool, htool, rfl⟩ := List.mem_map.1 h
  obtain ⟨call, hcall, hadded⟩ := mem_added_run digest toolType lookup policy calls tool htool
  obtain ⟨spec, hgenerate, hspec⟩ := generated_run digest toolType lookup policy calls tool htool
  obtain ⟨hlookup, hpolicy⟩ := settings_run (new digest toolType lookup policy) calls
  rw [hlookup, hpolicy] at hgenerate
  exact ⟨call, hcall, tool.action, hadded, spec, hgenerate, hspec⟩

end Repository

end ActionTools
