import ActionTools.Proofs.Json.Record
import ActionTools.Action

/-!
# Reading workflows

Around the parameters of an action in a workflow there are the action, the list of actions and the
workflow. So in a workflow that was read, no parameters are nested deeper than what the limit of the
reader leaves inside those three (`Workflow.parameters_le_of_parse?`). And a workflow is read back
from its text as long as that is not nested too deep (`Workflow.ofDocument?_parse?_text`). If it is,
it is so in the icon, a question or an action, all of which are read
(`Workflow.depth_le_of_reread`).
-/

namespace ActionTools

open Document

namespace Action

theorem ofDocument?_document (action : Action) :
    ofDocument? action.json.document = some action := by
  have hfields : action.json.document.fields? fieldNames =
      some [("WFWorkflowActionIdentifier", .string action.identifier),
        ("WFWorkflowActionParameters", action.parameters.json.document)] := rfl
  rw [ofDocument?, hfields]
  show (mapping? action.parameters.json.document).bind
    (fun parameters ↦ some (⟨action.identifier, parameters⟩ : Action)) = _
  rw [mapping?_document]
  rfl

theorem depth_json (action : Action) : action.json.depth = action.parameters.json.depth + 1 := by
  simp [json, Json.depth, Json.depthEntries]

/-- An action that is read from its text is not nested too deep. -/
theorem depth_le_of_reread {action found : Action} {depth : Nat} (hlimit : depth < nestingLimit)
    (h : ofDocument? (action.json.reread depth) = some found) :
    depth + action.json.depth ≤ nestingLimit := by
  have hreread : action.json.reread depth =
      .object [("WFWorkflowActionIdentifier", .string action.identifier),
        ("WFWorkflowActionParameters", action.parameters.json.reread (depth + 1))] := by
    rw [json, Json.reread, objectAt, if_pos hlimit]
    rfl
  rw [hreread] at h
  obtain ⟨parameters, hparameters, -⟩ : ∃ parameters,
      (action.parameters.json.reread (depth + 1)).mapping? = some parameters ∧ _ :=
    Option.bind_eq_some_iff.1 h
  have hdepth := Json.depth_le_of_json? hlimit (json?_eq_of_mapping? hparameters)
  rw [depth_json]
  omega

/-- Parameters that were read are one level less deep than their action. -/
theorem parameters_le {width levels : Nat} {document : Document}
    (h : Within width (levels + 2) document) {action : Action}
    (hread : ofDocument? document = some action) :
    action.parameters.json.depth ≤ levels + 1 ∧ action.parameters.json.width ≤ width := by
  obtain ⟨fields, hfields, hread⟩ := Option.bind_eq_some_iff.1 hread
  obtain ⟨identifier, -, hread⟩ := Option.bind_eq_some_iff.1 hread
  obtain ⟨parameters, hparameters, hread⟩ := Option.bind_eq_some_iff.1 hread
  cases hread
  rw [Fields.withDefault] at hparameters
  split at hparameters
  · next field hlookup =>
    exact (h.of_fields? hfields hlookup).json_le (json?_eq_of_mapping? hparameters)
  · cases hparameters
    exact ⟨Nat.le_add_left 1 levels, Nat.zero_le _⟩

end Action

namespace Workflow

/-- Around the parameters in a workflow that was read there are at least three others. -/
theorem parameters_le {width levels : Nat} {document : Document}
    (h : Within width (levels + 4) document) {workflow : Workflow}
    (hread : ofDocument? document = some workflow) {action : Action}
    (haction : action ∈ workflow.actions) :
    action.parameters.json.depth ≤ levels + 1 ∧ action.parameters.json.width ≤ width := by
  simp only [ofDocument?, Option.bind_eq_bind, Option.bind_eq_some_iff] at hread
  obtain ⟨fields, hfields, _, _, _, _, _, _, _, _, _, _, _, _, _, _, _, _, actions, hactions,
    heq⟩ := hread
  cases heq
  rw [Fields.withDefault] at hactions
  split at hactions
  · next field hlookup =>
    have hwithin := h.of_fields? hfields hlookup
    cases hwithin with
    | array hlength hitems =>
      obtain ⟨item, hitem, hitemread⟩ := mem_of_mapM hactions action haction
      exact Action.parameters_le (hitems item hitem) hitemread
    | _ => cases hactions
  · cases hactions
    exact absurd haction List.not_mem_nil

/-- **The parameters in a workflow that was read from a text** are at most 124 levels deep, and as
wide as the text is long. -/
theorem parameters_le_of_parse? {text : String} {workflow : Workflow}
    (hread : (Document.parse? text).bind ofDocument? = some workflow) {action : Action}
    (haction : action ∈ workflow.actions) :
    action.parameters.json.depth + 3 ≤ nestingLimit ∧
      action.parameters.json.width ≤ 2 * text.length + 1 := by
  obtain ⟨document, hdocument, hread⟩ := Option.bind_eq_some_iff.1 hread
  obtain ⟨hdepth, hwidth⟩ := @parameters_le _ 123 _ (within_of_parse? hdocument) _ hread _ haction
  exact ⟨Nat.add_le_add_right hdepth 3, hwidth⟩

/-! ### Reading back -/

theorem uint32?_document (n : UInt32) (h : n.toNat ≤ 0xFFFFFFFFFFFFFFFF) :
    (Json.ofNat n.toNat h).document.uint32? = some n := by
  have hnat : (Json.ofNat n.toNat h).document.nat? = some n.toNat := by
    simp [Json.ofNat, Number.ofNat, Json.document, nat?, Number.nat?]
  have hle : n.toNat ≤ 0xFFFFFFFF := Nat.le_of_lt_succ n.toNat_lt
  rw [uint32?, hnat, Option.bind_some, if_pos hle, UInt32.ofNat_toNat]

theorem strings?_document (texts : List String) :
    list? string? (stringsJson texts).document = some texts :=
  list?_document fun text _ ↦ string?_document text

/-- What a workflow is written as holds. -/
def entries (workflow : Workflow) : Entries Json := workflow.json.entries?.getD []

theorem json_eq (workflow : Workflow) : workflow.json = .object workflow.entries := rfl

/-- **A workflow is read back from what it is written as.** -/
theorem ofDocument?_document (workflow : Workflow) :
    ofDocument? workflow.json.document = some workflow := by
  have hkeys : (Entries.keys workflow.entries).Sublist fieldNames := List.Sublist.refl fieldNames
  have hversion : workflow.entries.lookup "WFWorkflowClientVersion" =
      some (.string workflow.clientVersion) := rfl
  have hminimum : workflow.entries.lookup "WFWorkflowMinimumClientVersion" =
      some (.ofNat workflow.minimumClientVersion.toNat
        (Nat.le_of_lt_succ
          (Nat.lt_trans workflow.minimumClientVersion.toNat_lt (by decide)))) := rfl
  have hicon : workflow.entries.lookup "WFWorkflowIcon" = some workflow.icon.json := rfl
  have hsurfaces : workflow.entries.lookup "WFQuickActionSurfaces" =
      some (stringsJson workflow.quickActionSurfaces) := rfl
  have hquestions : workflow.entries.lookup "WFWorkflowImportQuestions" =
      some (.array (workflow.importQuestions.map Tree.json)) := rfl
  have hinput : workflow.entries.lookup "WFWorkflowInputContentItemClasses" =
      some (stringsJson workflow.inputContentItemClasses) := rfl
  have houtput : workflow.entries.lookup "WFWorkflowOutputContentItemClasses" =
      some (stringsJson workflow.outputContentItemClasses) := rfl
  have hfallback : workflow.entries.lookup "WFWorkflowHasOutputFallback" =
      some (.bool workflow.hasOutputFallback) := rfl
  have hactions : workflow.entries.lookup "WFWorkflowActions" =
      some (.array (workflow.actions.map Action.json)) := rfl
  rw [ofDocument?, json_eq, fields?_document (by decide) hkeys]
  simp only [Option.bind_eq_bind, Option.bind_some]
  rw [Fields.withDefault_document hversion (string?_document _),
    Fields.withDefault_document hminimum (uint32?_document _ _),
    Fields.withDefault_document hicon (tree?_document _),
    Fields.withDefault_document hsurfaces (strings?_document _),
    Fields.withDefault_document hquestions (list?_document fun tree _ ↦ tree?_document tree),
    Fields.withDefault_document hinput (strings?_document _),
    Fields.withDefault_document houtput (strings?_document _),
    Fields.withDefault_document hfallback (bool?_document _),
    Fields.withDefault_document hactions
      (list?_document fun action _ ↦ Action.ofDocument?_document action)]
  rfl

/-- A workflow is read back from its text unless that is nested too deep. -/
theorem ofDocument?_parse?_text {workflow : Workflow} (hdoubles : workflow.json.ReadsBack)
    (hdepth : workflow.json.depth ≤ nestingLimit) (isPretty : Bool) :
    (Document.parse? (workflow.json.text isPretty)).bind ofDocument? = some workflow := by
  have hroom : 0 + workflow.json.depth ≤ nestingLimit := (Nat.zero_add _).le.trans hdepth
  rw [Json.parse?_text, Json.reread_eq_document hdoubles hroom, Option.bind_some,
    ofDocument?_document]

/-! ### Beyond the limit -/

theorem depth_stringsJson_le (texts : List String) : (stringsJson texts).depth ≤ 1 :=
  Json.depth_array_le_iff.2 (List.forall_mem_map.2 fun _ _ ↦ Nat.le_refl 0)

/-- A workflow that is read from its text is not nested too deep. -/
theorem depth_le_of_reread {workflow found : Workflow}
    (h : ofDocument? (workflow.json.reread 0) = some found) :
    workflow.json.depth ≤ nestingLimit := by
  have hfields : (workflow.json.reread 0).fields? fieldNames =
      some (workflow.entries.map fun entry ↦ (entry.1, entry.2.reread 1)) := rfl
  simp only [ofDocument?, hfields, Option.bind_eq_bind, Option.bind_some,
    Option.bind_eq_some_iff] at h
  obtain ⟨_, -, _, -, icon, hicon, _, -, questions, hquestions, _, -, _, -, _, -, actions, hactions,
    -⟩ := h
  have hicon : 1 + workflow.icon.json.depth ≤ nestingLimit :=
    Json.depth_le_of_json? (by decide) (@json?_eq_of_tree? (workflow.icon.json.reread 1) icon hicon)
  have hquestions :
      1 + (Json.array (workflow.importQuestions.map Tree.json)).depth ≤ nestingLimit :=
    depth_le_of_list? (by decide)
      (fun _ _ _ htree ↦ Json.depth_le_of_json? (by decide) (json?_eq_of_tree? htree)) hquestions
  have hactions : 1 + (Json.array (workflow.actions.map Action.json)).depth ≤ nestingLimit :=
    depth_le_of_list? (by decide)
      (fun _ _ _ haction ↦ Action.depth_le_of_reread (by decide) haction) hactions
  have hsurfaces := depth_stringsJson_le workflow.quickActionSurfaces
  have hinput := depth_stringsJson_le workflow.inputContentItemClasses
  have houtput := depth_stringsJson_le workflow.outputContentItemClasses
  rw [nestingLimit] at hicon hquestions hactions ⊢
  simp only [json, Json.depth, Json.depthEntries, Json.ofNat] at *
  omega

/-- A workflow nested too deep is not read from its text. -/
theorem ofDocument?_parse?_text_eq_none {workflow : Workflow}
    (hdepth : ¬ workflow.json.depth ≤ nestingLimit) (isPretty : Bool) :
    (Document.parse? (workflow.json.text isPretty)).bind ofDocument? = none := by
  rw [Json.parse?_text, Option.bind_some, Option.eq_none_iff_forall_ne_some]
  exact fun found hfound ↦ hdepth (depth_le_of_reread hfound)

end Workflow

end ActionTools
