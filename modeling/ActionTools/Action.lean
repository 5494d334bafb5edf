import ActionTools.Json.Equality
import ActionTools.Json.Record

/-!
# Actions and workflows

An action is an identifier with a mapping of parameters. A workflow is a document of actions with a
header; a header field that is missing from a workflow read has the value it has in every workflow
written (`Workflow.ofActions`).

Records are read by `ofDocument?` and written by `json`, which names the fields in their order.
-/

namespace ActionTools

/-- One automation step. -/
structure Action where
  identifier : String
  parameters : Mapping
  deriving DecidableEq

namespace Action

/-- The parameters as a tree. -/
def tree (action : Action) : Tree := action.parameters.tree

/-- The action with the given parameters, or with none when they are not a mapping. -/
def ofTree (identifier : String) (parameters : Tree) : Action :=
  ⟨identifier, parameters.mapping?.getD ∅⟩

/-- The identifier by which other actions refer to the output of this one. -/
def uuid? (action : Action) : Option String :=
  (action.parameters.json.get? "UUID").bind Json.string?

/-- The bundle and the intent that the action addresses, when it is an app intent. -/
def appIntent? (action : Action) : Option (String × String) := do
  let descriptor ← action.parameters.json.get? "AppIntentDescriptor"
  let bundle ← (descriptor.get? "BundleIdentifier").bind Json.string?
  let intent ← (descriptor.get? "AppIntentIdentifier").bind Json.string?
  some (bundle, intent)

/-- Equality as data: the order of keys does not matter. -/
def equal (a b : Action) : Bool := a.identifier == b.identifier && a.parameters.equal b.parameters

/-- The names of the fields. -/
def fieldNames : List String := ["WFWorkflowActionIdentifier", "WFWorkflowActionParameters"]

/-- An action as a value. -/
def json (action : Action) : Json :=
  .object
    [("WFWorkflowActionIdentifier", .string action.identifier),
      ("WFWorkflowActionParameters", action.parameters.json)]

/-- Reads an action. -/
def ofDocument? (document : Document) : Option Action := do
  let fields ← document.fields? fieldNames
  let identifier ← fields.required "WFWorkflowActionIdentifier" Document.string?
  let parameters ← fields.withDefault "WFWorkflowActionParameters" ∅ Document.mapping?
  some ⟨identifier, parameters⟩

end Action

/-- A workflow document. -/
structure Workflow where
  clientVersion : String
  minimumClientVersion : UInt32
  icon : Tree
  quickActionSurfaces : List String
  importQuestions : List Tree
  inputContentItemClasses : List String
  outputContentItemClasses : List String
  hasOutputFallback : Bool
  actions : List Action
  deriving DecidableEq

namespace Workflow

/-- The icon of a workflow that names none. -/
def standardIcon : Tree :=
  ⟨.object
    [("WFWorkflowIconStartColor", .number (.whole ⟨-2873601, by decide, by decide⟩)),
      ("WFWorkflowIconGlyphNumber", .ofNat 61440)], by decide⟩

/-- The content classes of a workflow that names none. -/
def standardContentClasses : List String := ["WFAppContentItem", "WFStringContentItem"]

/-- The workflow of some actions under the standard header. -/
def ofActions (actions : List Action) : Workflow where
  clientVersion := "2038.0.2.4"
  minimumClientVersion := 900
  icon := standardIcon
  quickActionSurfaces := [""]
  importQuestions := []
  inputContentItemClasses := standardContentClasses
  outputContentItemClasses := standardContentClasses
  hasOutputFallback := false
  actions := actions

/-- The names of the fields. -/
def fieldNames : List String :=
  ["WFWorkflowClientVersion", "WFWorkflowMinimumClientVersion", "WFWorkflowIcon",
    "WFQuickActionSurfaces", "WFWorkflowImportQuestions", "WFWorkflowInputContentItemClasses",
    "WFWorkflowOutputContentItemClasses", "WFWorkflowHasOutputFallback", "WFWorkflowActions"]

/-- A list of texts as a value. -/
def stringsJson (texts : List String) : Json := .array (texts.map .string)

/-- A workflow as a value. -/
def json (workflow : Workflow) : Json :=
  .object
    [("WFWorkflowClientVersion", .string workflow.clientVersion),
      ("WFWorkflowMinimumClientVersion",
        .ofNat workflow.minimumClientVersion.toNat
          (Nat.le_of_lt_succ (Nat.lt_trans workflow.minimumClientVersion.toNat_lt (by decide)))),
      ("WFWorkflowIcon", workflow.icon.json),
      ("WFQuickActionSurfaces", stringsJson workflow.quickActionSurfaces),
      ("WFWorkflowImportQuestions", .array (workflow.importQuestions.map Tree.json)),
      ("WFWorkflowInputContentItemClasses", stringsJson workflow.inputContentItemClasses),
      ("WFWorkflowOutputContentItemClasses", stringsJson workflow.outputContentItemClasses),
      ("WFWorkflowHasOutputFallback", .bool workflow.hasOutputFallback),
      ("WFWorkflowActions", .array (workflow.actions.map Action.json))]

/-- Reads a workflow. -/
def ofDocument? (document : Document) : Option Workflow := do
  let standard := ofActions []
  let strings := Document.list? Document.string?
  let fields ← document.fields? fieldNames
  let clientVersion ←
    fields.withDefault "WFWorkflowClientVersion" standard.clientVersion Document.string?
  let minimumClientVersion ←
    fields.withDefault "WFWorkflowMinimumClientVersion" standard.minimumClientVersion
      Document.uint32?
  let icon ← fields.withDefault "WFWorkflowIcon" standard.icon Document.tree?
  let quickActionSurfaces ←
    fields.withDefault "WFQuickActionSurfaces" standard.quickActionSurfaces strings
  let importQuestions ←
    fields.withDefault "WFWorkflowImportQuestions" standard.importQuestions
      (Document.list? Document.tree?)
  let inputContentItemClasses ←
    fields.withDefault "WFWorkflowInputContentItemClasses" standard.inputContentItemClasses strings
  let outputContentItemClasses ←
    fields.withDefault "WFWorkflowOutputContentItemClasses" standard.outputContentItemClasses
      strings
  let hasOutputFallback ←
    fields.withDefault "WFWorkflowHasOutputFallback" standard.hasOutputFallback Document.bool?
  let actions ←
    fields.withDefault "WFWorkflowActions" standard.actions (Document.list? Action.ofDocument?)
  some
    { clientVersion, minimumClientVersion, icon, quickActionSurfaces, importQuestions,
      inputContentItemClasses, outputContentItemClasses, hasOutputFallback, actions }

end Workflow

end ActionTools
