import ActionTools.Action

/-!
# Scaffolding actions

A workflow is put together with actions of a few fixed shapes: comments, conditionals, look-ups in a
dictionary, assignments to variables. `Scaffold` has one constructor for each shape, holding just
what varies, and `other` for every action that is none of them.

`Scaffold.action` writes a scaffolding action out in full. The parameters are built from literal
keys, so that they are distinct can be seen from the shape alone (`distinct_entries`). An identifier
by which other actions refer to an output is drawn from an `IdSupply` when the action is made.
-/

namespace ActionTools

/-- Identifiers for new actions, in the order in which they are drawn. -/
abbrev IdSupply := Nat → String

/-- The identifiers `stem-1`, `stem-2`, and so on. -/
def sequentialIds (stem : String) : IdSupply := fun drawn ↦
  stem ++ "-" ++ String.ofList (Decimal.digitChars (drawn + 1))

/-- A value in a constant dictionary. -/
inductive DictionaryValue where
  | text (value : String)
  | nested (entries : List (String × String))
  deriving DecidableEq

/-- An action with which workflows are put together, or another one. -/
inductive Scaffold where
  | comment (text : String)
  /-- Takes the input of the workflow as a dictionary. -/
  | dictionaryInput (uuid : String)
  /-- Looks up `key` in a dictionary, or in the dictionary under `dictionaryKey` in it. -/
  | getValueForKey (dictionaryId : String) (dictionaryKey : Option String) (key uuid : String)
  /-- Begins a branch taken when an output is `value`. -/
  | ifOutputEquals (outputId value groupingId : String)
  /-- Ends a branch. -/
  | endIf (uuid groupingId : String)
  | setVariable (outputId variableName : String)
  | fileSave (outputId filePath : String)
  | base64Encode (outputId uuid : String)
  | exit
  | outputAndExit (outputId : String)
  | dictionary (data : List (String × DictionaryValue))
  /-- An action of no scaffolding shape, as it is. -/
  | other (action : Action)
  deriving DecidableEq

namespace Scaffold

/-! ### Identifiers -/

/-- The identifier of comments. -/
def commentId : String := "is.workflow.actions.comment"

/-- The identifier of actions that take a dictionary from their input. -/
def detectDictionaryId : String := "is.workflow.actions.detect.dictionary"

/-- The identifier of look-ups in a dictionary. -/
def getValueForKeyId : String := "is.workflow.actions.getvalueforkey"

/-- The identifier of the beginning and of the end of a branch. -/
def conditionalId : String := "is.workflow.actions.conditional"

/-- The identifier of assignments to variables. -/
def setVariableId : String := "is.workflow.actions.setvariable"

/-- The identifier of actions that save a file. -/
def fileSaveId : String := "is.workflow.actions.documentpicker.save"

/-- The identifier of encodings. -/
def base64EncodeId : String := "is.workflow.actions.base64encode"

/-- The identifier of actions that end the workflow. -/
def exitId : String := "is.workflow.actions.exit"

/-- The identifier of actions that end the workflow with an output. -/
def outputId : String := "is.workflow.actions.output"

/-- The identifier of constant dictionaries. -/
def dictionaryId : String := "is.workflow.actions.dictionary"

/-- The identifiers of all scaffolding actions. -/
def identifiers : List String :=
  [commentId, detectDictionaryId, getValueForKeyId, conditionalId, setVariableId, fileSaveId,
    base64EncodeId, exitId, outputId, dictionaryId]

/-- The identifier of the written action. -/
def identifier : Scaffold → String
  | comment _ => commentId
  | dictionaryInput _ => detectDictionaryId
  | getValueForKey .. => getValueForKeyId
  | ifOutputEquals .. | endIf .. => conditionalId
  | setVariable .. => setVariableId
  | fileSave .. => fileSaveId
  | base64Encode .. => base64EncodeId
  | exit => exitId
  | outputAndExit _ => outputId
  | dictionary _ => dictionaryId
  | other action => action.identifier

/-- Whether the shape is one of the fixed ones. -/
def isRecognized : Scaffold → Bool
  | other _ => false
  | _ => true

/-- The identifier by which other actions refer to the output of this one. -/
def outputId? : Scaffold → Option String
  | dictionaryInput uuid | getValueForKey _ _ _ uuid | base64Encode _ uuid => some uuid
  | other action => action.uuid?
  | _ => none

/-- The identifier that the beginning and the end of a branch share. -/
def groupingId? : Scaffold → Option String
  | ifOutputEquals _ _ groupingId | endIf _ groupingId => some groupingId
  | _ => none

/-- Equality as data. -/
def equal : Scaffold → Scaffold → Bool
  | other a, other b => a.equal b
  | a, b => a == b

/-! ### Constants of the written form -/

/-- The control flow mode that begins a branch. -/
def startMode : Json := .ofNat 0

/-- The control flow mode that ends a branch. -/
def endMode : Json := .ofNat 2

/-- The condition that an output is a given text. -/
def equalsCondition : Json := .ofNat 4

/-- The range of an attachment that is the whole of a text. -/
def attachmentRange : String := "\x7b0, 1\x7d"

/-- The character that an attachment stands for in a text. -/
def attachmentText : String := "\ufffc"

/-- How a value that is attached to a parameter is serialized. -/
def attachmentSerialization : Json := .string "WFTextTokenAttachment"

/-- How a text is serialized. -/
def textSerialization : Json := .string "WFTextTokenString"

/-- How a dictionary is serialized. -/
def dictionarySerialization : Json := .string "WFDictionaryFieldValue"

/-! ### Writing -/

/-- A reference to the output of an action. -/
def outputReference (id : String) : List (String × Json) :=
  [("OutputUUID", .string id), ("Type", .string "ActionOutput")]

/-- A reference to the output of an action as an attachment. -/
def attachedOutput (id : String) : Json :=
  .object [("Value", .object (outputReference id)),
    ("WFSerializationType", attachmentSerialization)]

/-- A constant text. -/
def textToken (text : String) : Json :=
  .object [("Value", .object [("string", .string text)]),
    ("WFSerializationType", textSerialization)]

/-- An entry of a constant dictionary whose value is a text. -/
def textItem (key text : String) : Json :=
  .object [("WFItemType", .ofNat 0), ("WFKey", textToken key), ("WFValue", textToken text)]

/-- A constant dictionary of written entries. -/
def dictionaryToken (items : List Json) : Json :=
  .object [("Value", .object [("WFDictionaryFieldValueItems", .array items)]),
    ("WFSerializationType", dictionarySerialization)]

/-- An entry of a constant dictionary. -/
def dictionaryItem (key : String) : DictionaryValue → Json
  | .text value => textItem key value
  | .nested entries =>
    .object [("WFItemType", .ofNat 1), ("WFKey", textToken key),
      ("WFValue", dictionaryToken (entries.map fun entry ↦ textItem entry.1 entry.2))]

/-- The parameters of the written action. -/
def entries : Scaffold → List (String × Json)
  | comment text => [("WFCommentActionText", .string text)]
  | dictionaryInput uuid =>
    [("WFInput",
        .object [("Value", .object [("Type", .string "ExtensionInput")]),
          ("WFSerializationType", attachmentSerialization)]),
      ("UUID", .string uuid)]
  | getValueForKey dictionaryId dictionaryKey key uuid =>
    let aggrandizements := match dictionaryKey with
      | some dictionaryKey =>
        [("Aggrandizements",
          Json.array [.object [("DictionaryKey", .string dictionaryKey),
            ("Type", .string "WFDictionaryValueVariableAggrandizement")]])]
      | none => []
    [("WFInput",
        .object [("Value", .object (outputReference dictionaryId ++ aggrandizements)),
          ("WFSerializationType", attachmentSerialization)]),
      ("UUID", .string uuid), ("WFDictionaryKey", .string key)]
  | ifOutputEquals outputId value groupingId =>
    [("WFInput",
        .object [("Type", .string "Variable"),
          ("Variable",
            .object [("Value",
                .object [("Type", .string "ActionOutput"), ("OutputUUID", .string outputId),
                  ("Aggrandizements",
                    .array [.object [("Type", .string "WFCoercionVariableAggrandizement"),
                      ("CoercionItemClass", .string "WFStringContentItem")]])]),
              ("WFSerializationType", attachmentSerialization)])]),
      ("WFControlFlowMode", startMode), ("WFConditionalActionString", .string value),
      ("GroupingIdentifier", .string groupingId), ("WFCondition", equalsCondition)]
  | endIf uuid groupingId =>
    [("UUID", .string uuid), ("GroupingIdentifier", .string groupingId),
      ("WFControlFlowMode", endMode)]
  | setVariable outputId variableName =>
    [("WFInput", attachedOutput outputId), ("WFVariableName", .string variableName)]
  | fileSave outputId filePath =>
    [("WFInput", .object [("Value", .object (outputReference outputId))]),
      ("WFSaveFileOverwrite", .bool true), ("WFAskWhereToSave", .bool false),
      ("WFFileDestinationPath", .string filePath)]
  | base64Encode outputId uuid => [("UUID", .string uuid), ("WFInput", attachedOutput outputId)]
  | exit => []
  | outputAndExit outputId =>
    [("WFOutput",
      .object [("Value",
          .object [("attachmentsByRange",
              .object [(attachmentRange,
                .object [("Type", .string "ActionOutput"), ("OutputUUID", .string outputId)])]),
            ("string", .string attachmentText)]),
        ("WFSerializationType", textSerialization)])]
  | dictionary data =>
    [("WFItems", dictionaryToken (data.map fun entry ↦ dictionaryItem entry.1 entry.2))]
  | other action => action.parameters.entries

theorem distinct_textToken (text : String) : (textToken text).Distinct := by
  simp [textToken, textSerialization]

theorem distinct_textItem (key text : String) : (textItem key text).Distinct := by
  simp [textItem, Json.ofNat, distinct_textToken]

/-- A dictionary of distinct items is distinct. -/
theorem distinct_dictionaryToken {items : List Json} (h : ∀ item ∈ items, item.Distinct) :
    (dictionaryToken items).Distinct := by
  simpa [dictionaryToken, dictionarySerialization] using h

/-- An item of a dictionary is distinct, whichever kind of value it holds. -/
theorem distinct_dictionaryItem (key : String) (value : DictionaryValue) :
    (dictionaryItem key value).Distinct := by
  cases value with
  | text value => exact distinct_textItem key value
  | nested entries =>
    have h : (dictionaryToken (entries.map fun entry ↦ textItem entry.1 entry.2)).Distinct := by
      refine distinct_dictionaryToken fun item hmem ↦ ?_
      obtain ⟨entry, -, rfl⟩ := List.mem_map.1 hmem
      exact distinct_textItem entry.1 entry.2
    simp [dictionaryItem, Json.ofNat, distinct_textToken, h]

/-- The parameters of a written action repeat no key. -/
theorem distinct_entries (scaffold : Scaffold) : (Json.object scaffold.entries).Distinct := by
  cases scaffold with
  | getValueForKey dictionaryId dictionaryKey key uuid =>
    cases dictionaryKey <;> simp [entries, outputReference, attachmentSerialization]
  | dictionary data =>
    have h : (dictionaryToken (data.map fun entry ↦ dictionaryItem entry.1 entry.2)).Distinct := by
      refine distinct_dictionaryToken fun item hmem ↦ ?_
      obtain ⟨entry, -, rfl⟩ := List.mem_map.1 hmem
      exact distinct_dictionaryItem entry.1 entry.2
    simp [entries, h]
  | other action => exact action.parameters.distinct
  | _ =>
    simp [entries, outputReference, attachedOutput, attachmentSerialization, textSerialization,
      startMode, endMode, equalsCondition, Json.ofNat]

/-- The written action. -/
def action (scaffold : Scaffold) : Action :=
  ⟨scaffold.identifier, scaffold.entries, scaffold.distinct_entries⟩

/-! ### Drawing identifiers -/

/-- A scaffolding action to be made: as it is, or from the next identifier. -/
inductive Draft where
  | complete (scaffold : Scaffold)
  | drawing (finish : String → Scaffold)

/-- The actions of drafts, identifiers being drawn from the supply from `drawn` on. -/
def ofDrafts (ids : IdSupply) (drawn : Nat) : List Draft → List Scaffold
  | [] => []
  | .complete scaffold :: rest => scaffold :: ofDrafts ids drawn rest
  | .drawing finish :: rest => finish (ids drawn) :: ofDrafts ids (drawn + 1) rest

end Scaffold

end ActionTools
