import ActionTools.Lookup
import ActionTools.Naming.Namer
import ActionTools.Reference
import ActionTools.Tool

/-!
# From an action to a tool

Each variable reference in an action's parameters becomes a parameter of a tool, named by a `Namer`
that sees the top-level keys in their order. What a caller learns about a parameter depends only on
the key that its reference is under, also when the reference has been moved to its full path. So
the keys are described (`Action.keySpecs`), and each name gets the description of its key after all
names are final (`Action.describe`).
-/

namespace ActionTools

/-- A text that is there and not empty. -/
def nonEmpty? (text : Option String) : Option String := text.filter fun text ↦ !text.isEmpty

/-- The description of a tool: the best summary there is, and what the action returns. -/
def toolDescription (identifier : String) (action : Option ActionDefinition)
    (intent : Option IntentDefinition) : String :=
  let summary :=
    ((action.bind ActionDefinition.description).bind fun description ↦
        nonEmpty? description.summary <|> nonEmpty? description.note)
      <|> intent.bind (fun intent ↦ nonEmpty? intent.description?)
      <|> intent.bind (fun intent ↦ nonEmpty? (some intent.title.key))
  let text := summary.getD identifier
  match action.bind ActionDefinition.output with
  | some output =>
    let name := output.name.getD "output"
    let types := ", ".intercalate (output.types.getD [])
    s!"{text}\nReturns {name} ({types})"
  | none => text

/-- The description of a parameter: its class, and its description, label, title or key. -/
def parameterDescription (key : String) (parameter : Option ParameterDefinition)
    (intent : Option IntentParameter) : String :=
  let stated := parameter.bind fun parameter ↦ parameter.description <|> parameter.label
  let text := (stated <|> intent.map fun intent ↦ intent.title.key).getD key
  match parameter.bind ParameterDefinition.className with
  | some className => s!"({className}) {text}"
  | none => text

/-- Whether a parameter has to be given. An intent says so itself; otherwise a parameter is required
unless its definition has a default value, whatever that value is. -/
def parameterRequired (parameter : Option ParameterDefinition) (intent : Option IntentParameter) :
    Bool :=
  match intent with
  | some intent => !intent.isOptional
  | none => (parameter.bind ParameterDefinition.defaultValue).isNone

namespace Lookup

/-- The definition of an action. -/
def actionOf? (lookup : Lookup) (action : Action) : Option ActionDefinition :=
  lookup.action? action.identifier

/-- The definition of the intent that an action addresses. -/
def intentOf? (lookup : Lookup) (action : Action) : Option IntentDefinition :=
  action.appIntent?.bind fun (bundle, intent) ↦ lookup.intent? bundle intent

/-- What a caller learns about a parameter found under `key`. -/
def parameterSpec (lookup : Lookup) (action : Action) (key : String) : ParameterSpec :=
  let parameter := (lookup.actionOf? action).bind (·.parameter? key)
  let intent := (lookup.intentOf? action).bind (·.parameter? key)
  ⟨parameterRequired parameter intent, parameterDescription key parameter intent, .string⟩

end Lookup

namespace Action

/-- The top-level keys under which there are references, with the places of these. -/
def referenceKeys (action : Action) : List (String × List Path) :=
  (action.parameters.entries.map fun entry ↦ (entry.1, entry.2.references)).filter fun entry ↦
    !entry.2.isEmpty

/-- For each top-level key under which there are references, what a caller learns about them. -/
def keySpecs (action : Action) (lookup : Lookup) : List (String × ParameterSpec) :=
  action.referenceKeys.map fun entry ↦ (entry.1, lookup.parameterSpec action entry.1)

/-- The parameters of names that come with their keys. A name whose key is not described is left
out. -/
def describe (keySpecs : List (String × ParameterSpec)) (sources : List (String × String)) :
    Parameters :=
  .ofList (sources.filterMap fun (name, key) ↦ (keySpecs.lookup key).map fun spec ↦ (name, spec))

/-- The tool of an action. -/
def generate (lookup : Lookup) (policy : CollisionPolicy) (action : Action) :
    Except Failure Spec := do
  let namer ← (Namer.new action.identifier policy).addKeys action.referenceKeys
  let definition : Definition :=
    { name := action.identifier
      description :=
        toolDescription action.identifier (lookup.actionOf? action) (lookup.intentOf? action)
      parameters := describe (action.keySpecs lookup) namer.sources
      responseType := .string }
  pure ⟨⟨definition, none⟩, ⟨action, namer.paths⟩⟩

end Action

end ActionTools
