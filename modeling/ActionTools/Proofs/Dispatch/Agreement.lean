import ActionTools.Proofs.Dispatch.Scope
import ActionTools.Proofs.FirstFailure
import ActionTools.Proofs.Invocation

/-!
# Dispatch and direct calls

A branch of a dispatch workflow does not call its tool but fills the template on its own. The two
agree: the template of a branch is what the tool gives when it is called with each parameter bound
to its variable (`Spec.BindsVariables`), only its identifier is new
(`filledTemplate_eq_instantiate`). Such a call gives all parameters and no others, so it passes both
checks, and what is left of it fills the same places in the same order. Nothing is assumed of the
places. They may be written by hand and missing from the template, and then both fail alike.

The branches are built one after the other, so a workflow fails as the first of these calls that
does (`FailsFirst`).
-/

namespace ActionTools

/-- The action with the identifier by which others refer to its output. -/
def Action.withUuid (action : Action) (id : String) : Action :=
  { action with parameters := action.parameters.set "UUID" (.string id) }

namespace Spec

variable {spec : Spec} {parameters : Mapping}

/-- The parameters are those of the tool, each bound to its variable. -/
def BindsVariables (spec : Spec) (parameters : Mapping) : Prop :=
  ∀ name, parameters.get? name = (spec.metadata.paths.get? name).map fun _ ↦
    Tree.string (Dispatch.variableName spec.effectiveName name)

/-- The parameters of a tool bound to their variables, in the order of their names. -/
def variableBinding (spec : Spec) : Mapping where
  entries := spec.metadata.paths.entries.map fun entry ↦
    (entry.1, .string (Dispatch.variableName spec.effectiveName entry.1))
  distinct := by
    refine Json.distinct_object.2 ⟨?_, fun entry hentry ↦ ?_⟩
    · exact (spec.metadata.paths.map fun name _ ↦
        Json.string (Dispatch.variableName spec.effectiveName name)).nodup_keys_entries
    · obtain ⟨_, -, rfl⟩ := List.mem_map.1 hentry
      trivial

/-- The call that the workflow makes binds each parameter to its variable. -/
theorem bindsVariables_variableBinding (spec : Spec) :
    spec.BindsVariables spec.variableBinding := by
  intro name
  refine Option.map_injective Tree.json_injective ?_
  rw [Mapping.map_json_get?, variableBinding, Option.map_map]
  exact Entries.lookup_map
    (fun key _ ↦ Json.string (Dispatch.variableName spec.effectiveName key)) name
    spec.metadata.paths.entries

namespace BindsVariables

/-- No parameter is given that the tool does not have. -/
theorem unknownParameter? (h : spec.BindsVariables parameters) :
    spec.unknownParameter? parameters = none := by
  refine unknownParameter?_eq_none_iff.2 fun name hname ↦ ?_
  by_contra hnot
  have hnone := h name
  rw [NameMap.get?_eq_none_iff.2 hnot, Option.map_none] at hnone
  exact Mapping.get?_eq_none_iff.1 hnone hname

/-- No parameter is left out. -/
theorem missingParameter? (h : spec.BindsVariables parameters) :
    spec.missingParameter? parameters = none := by
  refine List.find?_eq_none.2 fun name hname ↦ ?_
  obtain ⟨path, hpath⟩ := NameMap.mem_names_iff.1 hname
  rw [h name, hpath, Option.map_some, Option.isNone_some, Bool.and_false]
  exact Bool.false_ne_true

/-- The variables go to all places, in the order of the parameters. -/
theorem substitutions (h : spec.BindsVariables parameters) :
    spec.substitutions parameters = spec.metadata.paths.entries.map fun entry ↦
      (entry.2, Tree.string (Dispatch.variableName spec.effectiveName entry.1)) := by
  rw [Spec.substitutions, ← List.filterMap_eq_map]
  refine List.filterMap_congr fun entry hentry ↦ ?_
  rw [h entry.1, NameMap.get?_eq_some_iff.2 hentry]
  rfl

end BindsVariables

end Spec

namespace Dispatch

variable {inputId toolId : String} {supply : IdSupply} {first : Nat} {spec : Spec}
  {failure : Failure}

/-- **What a branch runs is what a call with the variables gives**, with an identifier of its
own. -/
theorem filledTemplate_eq_instantiate {parameters : Mapping} (h : spec.BindsVariables parameters)
    (id : String) :
    filledTemplate spec id = (spec.instantiate parameters).map fun action ↦ action.withUuid id := by
  rw [filledTemplate, Spec.instantiate, h.unknownParameter?, h.missingParameter?, h.substitutions]
  dsimp only
  cases spec.metadata.template.tree.substituteAll _ <;> rfl

/-- A branch fails when the call it makes does, and in the same way. Nothing else in a branch can
fail. -/
theorem branch_eq_error_iff {parameters : Mapping} (h : spec.BindsVariables parameters) :
    branch inputId toolId supply first spec = .error failure ↔
      spec.instantiate parameters = .error failure := by
  rw [branch]
  simp only [filledTemplate_eq_instantiate h]
  cases spec.instantiate parameters <;> simp [Except.map]

/-! ### The first failure -/

variable {bound : Spec → Mapping}

/-- Called one after the other, some tool is the first to fail, and this is how it fails. -/
def FailsFirst (bound : Spec → Mapping) (specs : List TaggedSpec) (failure : Failure) : Prop :=
  ∃ before tagged after, specs = before ++ tagged :: after ∧
    (∀ earlier ∈ before, ∃ action, earlier.spec.instantiate (bound earlier.spec) = .ok action) ∧
    tagged.spec.instantiate (bound tagged.spec) = .error failure

theorem failsFirst_iff {specs : List TaggedSpec} :
    FailsFirst bound specs failure ↔
      FirstFails (fun tagged ↦ ∃ action, tagged.spec.instantiate (bound tagged.spec) = .ok action)
        (fun tagged ↦ tagged.spec.instantiate (bound tagged.spec) = .error failure) specs :=
  Iff.rfl

theorem not_failsFirst_nil : ¬ FailsFirst bound [] failure := by
  rw [failsFirst_iff]
  exact not_firstFails_nil

theorem failsFirst_cons {tagged : TaggedSpec} {rest : List TaggedSpec} :
    FailsFirst bound (tagged :: rest) failure ↔
      tagged.spec.instantiate (bound tagged.spec) = .error failure ∨
        (∃ action, tagged.spec.instantiate (bound tagged.spec) = .ok action) ∧
          FailsFirst bound rest failure := by
  rw [failsFirst_iff, failsFirst_iff]
  exact firstFails_cons_iff

/-- **Branches fail with the first of their calls that fails**, by induction on the tools. -/
theorem branches_eq_error_iff {specs : List TaggedSpec}
    (hbound : ∀ tagged ∈ specs, tagged.spec.BindsVariables (bound tagged.spec)) :
    branches inputId toolId supply first specs = .error failure ↔
      FailsFirst bound specs failure := by
  induction specs generalizing first with
  | nil => exact iff_of_false nofun not_failsFirst_nil
  | cons tagged rest ih =>
    obtain ⟨htagged, hrest⟩ := List.forall_mem_cons.1 hbound
    rw [failsFirst_cons, branches]
    cases hcall : tagged.spec.instantiate (bound tagged.spec) with
    | error refused =>
      rw [(branch_eq_error_iff htagged).2 hcall]
      simp
    | ok action =>
      -- The branch of this tool is built, so the others decide.
      rw [← ih hrest]
      cases hown : branch inputId toolId supply first tagged.spec with
      | error refused =>
        rw [(branch_eq_error_iff htagged).1 hown] at hcall
        cases hcall
      | ok actions =>
        cases branches inputId toolId supply (first + branchDemand tagged.spec) rest <;> simp

/-- **A workflow fails with the first of its calls that fails.** Its header and its end cannot. -/
theorem workflow_eq_error_iff {catalog : Catalog}
    (hbound : ∀ tagged ∈ catalog.specs, tagged.spec.BindsVariables (bound tagged.spec)) :
    workflow catalog supply = .error failure ↔ FailsFirst bound catalog.specs failure := by
  rw [workflow, ← branches_eq_error_iff hbound]
  cases branches _ _ _ _ catalog.specs <;> simp

/-- The template of a complete branch is that of a call with the variables. -/
theorem Block.Complete.exists_instantiate {block : Block} {parameters : Mapping}
    (h : block.Complete) (hbound : block.spec.BindsVariables parameters) :
    ∃ action, block.spec.instantiate parameters = .ok action ∧
      block.filled = action.withUuid block.filledId := by
  have hfilled := h.filledTemplate_eq
  rw [filledTemplate_eq_instantiate hbound] at hfilled
  cases hcall : block.spec.instantiate parameters with
  | error failure => rw [hcall] at hfilled; cases hfilled
  | ok action =>
    rw [hcall] at hfilled
    exact ⟨action, rfl, (Except.ok.inj hfilled).symm⟩

theorem Layout.Describes.exists_tagged {layout : Layout} {catalog : Catalog}
    {actions : List Action} (h : layout.Describes catalog supply actions) {block : Block}
    (hblock : block ∈ layout.blocks) : ∃ tagged ∈ catalog.specs, tagged.spec = block.spec := by
  have hmem := List.mem_map_of_mem (f := Block.spec) hblock
  rw [h.specs] at hmem
  exact List.mem_map.1 hmem

/-- **Dispatch agrees with direct calls.** When each tool is called with its parameters bound to
their variables, the workflow fails as the first of these calls that does, and else its branches
run what the calls give, each under an identifier of its own. -/
theorem workflow_agrees {catalog : Catalog} (supply : IdSupply)
    (hbound : ∀ tagged ∈ catalog.specs, tagged.spec.BindsVariables (bound tagged.spec)) :
    (∀ failure, workflow catalog supply = .error failure ↔
      FailsFirst bound catalog.specs failure) ∧
    ∀ built, workflow catalog supply = .ok built →
      ∃ layout : Layout, layout.Describes catalog supply built.actions ∧
        ∀ block ∈ layout.blocks, ∃ action,
          block.spec.instantiate (bound block.spec) = .ok action ∧
            block.filled = action.withUuid block.filledId := by
  refine ⟨fun failure ↦ workflow_eq_error_iff hbound, fun built hbuilt ↦ ?_⟩
  obtain ⟨layout, hlayout⟩ := exists_layout hbuilt
  refine ⟨layout, hlayout, fun block hblock ↦ ?_⟩
  obtain ⟨tagged, htagged, hspec⟩ := hlayout.exists_tagged hblock
  exact (hlayout.complete block hblock).exists_instantiate (hspec ▸ hbound tagged htagged)

/-- Three tools. The second has two places that cannot be filled, and the third has one. -/
def misplaced : Catalog where
  specs :=
    [writtenTool ⟨"say", ⟨[("x", .reference "v")], by decide⟩⟩ ⟨[("x", [.key "x"])], by decide⟩,
      writtenTool ⟨"count", ⟨[("n", .string "1")], by decide⟩⟩
        ⟨[("a", [.key "n"]), ("b", [.key "m"])], by decide⟩,
      writtenTool ⟨"list", ∅⟩ ⟨[("c", [.index 0])], by decide⟩]

/-- The first place of the second tool is reported. Two tools without such places are dispatched to
what they give. -/
theorem workflow_misplaced :
    workflow misplaced (sequentialIds "ID") =
        .error (.templateIntegrity "n" "target is neither a sequence nor a reference") ∧
      ∃ built, workflow deceptive (sequentialIds "ID") = .ok built ∧
        ∃ layout : Layout, layout.Describes deceptive (sequentialIds "ID") built.actions ∧
          ∀ block ∈ layout.blocks, ∃ action,
            block.spec.instantiate block.spec.variableBinding = .ok action ∧
              block.filled = action.withUuid block.filledId := by
  have hbound (catalog : Catalog) : ∀ tagged ∈ catalog.specs,
      tagged.spec.BindsVariables tagged.spec.variableBinding :=
    fun tagged _ ↦ tagged.spec.bindsVariables_variableBinding
  obtain ⟨hfails, -⟩ := workflow_agrees (sequentialIds "ID") (hbound misplaced)
  obtain ⟨-, hagrees⟩ := workflow_agrees (sequentialIds "ID") (hbound deceptive)
  refine ⟨(hfails _).2 ⟨[_], _, [_], rfl, ?_, rfl⟩, _, rfl, hagrees _ rfl⟩
  exact List.forall_mem_singleton.2 ⟨_, rfl⟩

end Dispatch

end ActionTools
