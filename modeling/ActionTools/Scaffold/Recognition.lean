import ActionTools.Scaffold.Basic

/-!
# Recognizing scaffolding actions

`Action.scaffold` reads an action back as the scaffolding action it is written for. Each shape is
recognized by its identifier and by the constants and texts at fixed places; parameters beside those
are not looked at. An action without such a shape is `Scaffold.other`.
-/

namespace ActionTools

namespace Json

/-- The text at a chain of keys. -/
def textAt? (json : Json) (keys : List String) : Option String := (json.at? keys).bind string?

/-- The natural number at a chain of keys. -/
def natAt? (json : Json) (keys : List String) : Option Nat := (json.at? keys).bind nat?

/-- Whether a given text stands at a chain of keys. -/
def hasText (json : Json) (keys : List String) (text : String) : Bool :=
  json.textAt? keys == some text

end Json

namespace Scaffold

/-- Recognizes an action that takes the input of the workflow as a dictionary. -/
def dictionaryInput? (parameters : Json) : Option Scaffold := do
  guard (parameters.hasText ["WFInput", "Value", "Type"] "ExtensionInput")
  guard (parameters.hasText ["WFInput", "WFSerializationType"] "WFTextTokenAttachment")
  some (.dictionaryInput (← parameters.textAt? ["UUID"]))

/-- The dictionary key that a reference to an output may name in its first aggrandizement. -/
def dictionaryKey? (parameters : Json) : Option (Option String) :=
  match parameters.at? ["WFInput", "Value", "Aggrandizements"] with
  | none => some none
  | some (.array []) => some none
  | some (.array (first :: _)) => do
    guard (first.hasText ["Type"] "WFDictionaryValueVariableAggrandizement")
    some (some (← first.textAt? ["DictionaryKey"]))
  | some _ => none

/-- Recognizes a look-up in a dictionary. -/
def getValueForKey? (parameters : Json) : Option Scaffold := do
  guard (parameters.hasText ["WFInput", "Value", "Type"] "ActionOutput")
  let dictionaryKey ← dictionaryKey? parameters
  let dictionaryId ← parameters.textAt? ["WFInput", "Value", "OutputUUID"]
  let key ← parameters.textAt? ["WFDictionaryKey"]
  let uuid ← parameters.textAt? ["UUID"]
  some (.getValueForKey dictionaryId dictionaryKey key uuid)

/-- Recognizes the beginning of a branch. -/
def ifOutputEquals? (parameters : Json) : Option Scaffold := do
  guard (parameters.hasText ["WFInput", "Type"] "Variable")
  guard (parameters.natAt? ["WFCondition"] = some 4)
  let outputId ← parameters.textAt? ["WFInput", "Variable", "Value", "OutputUUID"]
  let value ← parameters.textAt? ["WFConditionalActionString"]
  let groupingId ← parameters.textAt? ["GroupingIdentifier"]
  some (.ifOutputEquals outputId value groupingId)

/-- Recognizes the end of a branch. -/
def endIf? (parameters : Json) : Option Scaffold := do
  let uuid ← parameters.textAt? ["UUID"]
  let groupingId ← parameters.textAt? ["GroupingIdentifier"]
  some (.endIf uuid groupingId)

/-- Recognizes the beginning or the end of a branch, by the control flow mode. -/
def conditional? (parameters : Json) : Option Scaffold :=
  match parameters.natAt? ["WFControlFlowMode"] with
  | some 0 => ifOutputEquals? parameters
  | some 2 => endIf? parameters
  | _ => none

/-- Recognizes an assignment to a variable. -/
def setVariable? (parameters : Json) : Option Scaffold := do
  guard (parameters.hasText ["WFInput", "Value", "Type"] "ActionOutput")
  let outputId ← parameters.textAt? ["WFInput", "Value", "OutputUUID"]
  let variableName ← parameters.textAt? ["WFVariableName"]
  some (.setVariable outputId variableName)

/-- Recognizes an action that saves a file without asking, over an earlier one. -/
def fileSave? (parameters : Json) : Option Scaffold := do
  guard (parameters.at? ["WFSaveFileOverwrite"] = some (.bool true))
  guard (parameters.at? ["WFAskWhereToSave"] = some (.bool false))
  let outputId ← parameters.textAt? ["WFInput", "Value", "OutputUUID"]
  let filePath ← parameters.textAt? ["WFFileDestinationPath"]
  some (.fileSave outputId filePath)

/-- Recognizes an encoding. -/
def base64Encode? (parameters : Json) : Option Scaffold := do
  guard (parameters.hasText ["WFInput", "Value", "Type"] "ActionOutput")
  let outputId ← parameters.textAt? ["WFInput", "Value", "OutputUUID"]
  let uuid ← parameters.textAt? ["UUID"]
  some (.base64Encode outputId uuid)

/-- Recognizes an end with an output, which is the first attachment of a text. -/
def outputAndExit? (parameters : Json) : Option Scaffold := do
  guard (parameters.hasText ["WFOutput", "WFSerializationType"] "WFTextTokenString")
  let attachments ← parameters.at? ["WFOutput", "Value", "attachmentsByRange"]
  match ← attachments.entries? with
  | [] => none
  | (_, first) :: _ => do
    guard (first.hasText ["Type"] "ActionOutput")
    some (.outputAndExit (← first.textAt? ["OutputUUID"]))

/-- The key of a written dictionary entry. -/
def itemKey? (item : Json) : Option String := item.textAt? ["WFKey", "Value", "string"]

/-- The text that a written dictionary entry has for a value. -/
def itemText? (item : Json) : Option String := item.textAt? ["WFValue", "Value", "string"]

/-- Reads an entry of a nested dictionary, whose value has to be a text. -/
def textItem? (item : Json) : Option (String × String) := do
  guard (item.natAt? ["WFItemType"] = some 0)
  some (← itemKey? item, ← itemText? item)

/-- Reads an entry of a constant dictionary. -/
def dictionaryItem? (item : Json) : Option (String × DictionaryValue) := do
  let key ← itemKey? item
  match item.natAt? ["WFItemType"] with
  | some 0 => some (key, .text (← itemText? item))
  | some 1 => do
    let items ← (item.at? ["WFValue", "Value", "WFDictionaryFieldValueItems"]).bind Json.items?
    some (key, .nested (← items.mapM textItem?))
  | _ => none

/-- Recognizes a constant dictionary. -/
def dictionary? (parameters : Json) : Option Scaffold := do
  guard (parameters.hasText ["WFItems", "WFSerializationType"] "WFDictionaryFieldValue")
  let items ←
    (parameters.at? ["WFItems", "Value", "WFDictionaryFieldValueItems"]).bind Json.items?
  some (.dictionary (← items.mapM dictionaryItem?))

/-- Recognizes the shape that goes with an identifier. -/
def recognize? (identifier : String) (parameters : Json) : Option Scaffold :=
  if identifier = commentId then
    (parameters.textAt? ["WFCommentActionText"]).map .comment
  else if identifier = detectDictionaryId then dictionaryInput? parameters
  else if identifier = getValueForKeyId then getValueForKey? parameters
  else if identifier = conditionalId then conditional? parameters
  else if identifier = setVariableId then setVariable? parameters
  else if identifier = fileSaveId then fileSave? parameters
  else if identifier = base64EncodeId then base64Encode? parameters
  else if identifier = exitId then if parameters = .object [] then some .exit else none
  else if identifier = outputId then outputAndExit? parameters
  else if identifier = dictionaryId then dictionary? parameters
  else none

end Scaffold

namespace Action

/-- The scaffolding action that an action is, or `Scaffold.other`. -/
def scaffold (action : Action) : Scaffold :=
  (Scaffold.recognize? action.identifier action.parameters.json).getD (.other action)

/-- Whether the identifier is one of a scaffolding action. The parameters are not looked at. -/
def hasScaffoldIdentifier (action : Action) : Bool :=
  Scaffold.identifiers.contains action.identifier

end Action

end ActionTools
