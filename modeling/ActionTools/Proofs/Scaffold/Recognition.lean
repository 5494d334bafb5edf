import ActionTools.Proofs.Json.Record
import ActionTools.Proofs.Repository.Keys
import ActionTools.Proofs.Scaffold.Equality

/-!
# Recognizing what was written

Recognition undoes writing: each scaffolding action is read back from what it is written as
(`scaffold_action`), and also from whatever is equal to that as data (`scaffold_of_equal`), so no
two scaffolding actions are written alike (`recognition_undoes_writing`).

Writing does not undo recognition. An action has exactly the shape of a kind when it is equal to
something written; such an action, and any that is not recognized, is kept
(`equal_action_scaffold_iff`). But recognition looks only at some places of the parameters. What
stands beside them is lost when the scaffolding action is written out again
(`not_equal_action_scaffold_decoding`), and a constant that is not looked at is put back.
-/

namespace ActionTools

namespace Scaffold

/-! ### Recognizing each kind -/

theorem textItem?_textItem (key text : String) :
    textItem? (textItem key text) = some (key, text) := rfl

/-- An entry of a dictionary is read back, a text or a list of texts. -/
theorem dictionaryItem?_dictionaryItem (key : String) (value : DictionaryValue) :
    dictionaryItem? (dictionaryItem key value) = some (key, value) := by
  cases value with
  | text text => rfl
  | nested entries =>
    have hitems : (entries.map fun entry ↦ textItem entry.1 entry.2).mapM textItem? =
        some entries :=
      Document.mapM_map fun entry _ ↦ textItem?_textItem entry.1 entry.2
    show ((entries.map fun entry ↦ textItem entry.1 entry.2).mapM textItem?).bind
      (fun entries ↦ some (key, DictionaryValue.nested entries)) = _
    rw [hitems]
    rfl

/-- A dictionary is recognized as the one that was written, with repeated and empty keys. -/
theorem dictionary?_entries (data : List (String × DictionaryValue)) :
    dictionary? (.object (entries (.dictionary data))) = some (.dictionary data) := by
  have hitems : (data.map fun entry ↦ dictionaryItem entry.1 entry.2).mapM dictionaryItem? =
      some data :=
    Document.mapM_map fun entry _ ↦ dictionaryItem?_dictionaryItem entry.1 entry.2
  show ((data.map fun entry ↦ dictionaryItem entry.1 entry.2).mapM dictionaryItem?).bind
    (fun data ↦ some (Scaffold.dictionary data)) = _
  rw [hitems]
  rfl

/-- Written parameters are recognized as what they are written for. -/
theorem recognize?_entries {scaffold : Scaffold} (h : scaffold.isRecognized = true) :
    recognize? scaffold.identifier (.object scaffold.entries) = some scaffold := by
  cases scaffold with
  | getValueForKey dictionaryId dictionaryKey key uuid => cases dictionaryKey <;> rfl
  | dictionary data => exact dictionary?_entries data
  | other action => cases h
  | _ => rfl

/-- A written end with an output has one attachment. -/
theorem length_attachments?_entries {scaffold : Scaffold} (h : scaffold.isRecognized = true)
    (houtput : scaffold.identifier = outputId) {attachments : List (String × Json)}
    (hfound : attachments? (.object scaffold.entries) = some attachments) :
    attachments.length ≤ 1 := by
  cases scaffold with
  | outputAndExit outputId =>
    cases hfound
    exact Nat.le_refl 1
  | other action => cases h
  | _ =>
    simp only [identifier] at houtput
    exact absurd houtput (by decide)

/-! ### What can be recognized -/

/-- Whatever is found is a scaffolding action with the given identifier. -/
def OfKind (identifier : String) (found : Option Scaffold) : Prop :=
  ∀ scaffold, found = some scaffold →
    scaffold.isRecognized = true ∧ scaffold.identifier = identifier

section Kinds

variable {α : Type} {identifier : String} {parameters : Json}

theorem ofKind_none : OfKind identifier none := nofun

/-- What is recognized is of its own kind. -/
theorem ofKind_some {scaffold : Scaffold} (h : scaffold.isRecognized = true) :
    OfKind scaffold.identifier (some scaffold) := by
  rintro _ ⟨⟩
  exact ⟨h, rfl⟩

/-- Only what is found in the end matters, not what has to be there for it. -/
theorem OfKind.bind {found : Option α} {next : α → Option Scaffold}
    (h : ∀ value, OfKind identifier (next value)) : OfKind identifier (found.bind next) := by
  intro scaffold hscaffold
  obtain ⟨value, -, hnext⟩ := Option.bind_eq_some_iff.1 hscaffold
  exact h value scaffold hnext

theorem ofKind_conditional? : OfKind conditionalId (conditional? parameters) := by
  rw [conditional?]
  split
  · exact .bind fun _ ↦ .bind fun _ ↦ .bind fun _ ↦ .bind fun _ ↦ .bind fun _ ↦ ofKind_some rfl
  · exact .bind fun _ ↦ .bind fun _ ↦ ofKind_some rfl
  · exact ofKind_none

theorem ofKind_outputAndExit? : OfKind outputId (outputAndExit? parameters) := by
  refine .bind fun _ ↦ .bind fun _ ↦ .bind fun attachments ↦ ?_
  cases attachments with
  | nil => exact ofKind_none
  | cons first rest => exact .bind fun _ ↦ .bind fun _ ↦ ofKind_some rfl

/-- What is recognized by an identifier is written with it. -/
theorem ofKind_recognize? : OfKind identifier (recognize? identifier parameters) := by
  rw [recognize?]
  -- The identifiers are tried in turn; a reader of a kind gives nothing but that kind.
  split
  · next hid =>
    rw [hid, Option.map_eq_bind]
    exact .bind fun _ ↦ ofKind_some rfl
  split
  · next hid => exact hid ▸ .bind fun _ ↦ .bind fun _ ↦ .bind fun _ ↦ ofKind_some rfl
  split
  · next hid =>
    exact hid ▸ .bind fun _ ↦ .bind fun _ ↦ .bind fun _ ↦ .bind fun _ ↦ .bind fun _ ↦
      ofKind_some rfl
  split
  · next hid => exact hid ▸ ofKind_conditional?
  split
  · next hid => exact hid ▸ .bind fun _ ↦ .bind fun _ ↦ .bind fun _ ↦ ofKind_some rfl
  split
  · next hid =>
    exact hid ▸ .bind fun _ ↦ .bind fun _ ↦ .bind fun _ ↦ .bind fun _ ↦ ofKind_some rfl
  split
  · next hid => exact hid ▸ .bind fun _ ↦ .bind fun _ ↦ .bind fun _ ↦ ofKind_some rfl
  split
  · next hid =>
    split
    · exact hid ▸ ofKind_some rfl
    · exact ofKind_none
  split
  · next hid => exact hid ▸ ofKind_outputAndExit?
  split
  · next hid => exact hid ▸ .bind fun _ ↦ .bind fun _ ↦ .bind fun _ ↦ ofKind_some rfl
  · exact ofKind_none

end Kinds

end Scaffold

/-! ### Recognizing actions -/

namespace Action

/-- An action is recognized under its identifier, or it is none of the fixed shapes. -/
theorem scaffold_eq_other_or (action : Action) :
    action.scaffold = .other action ∨
      action.scaffold.isRecognized = true ∧ action.scaffold.identifier = action.identifier := by
  rw [scaffold]
  cases hfound : Scaffold.recognize? action.identifier action.parameters.json with
  | none => exact .inl rfl
  | some scaffold => exact .inr (Scaffold.ofKind_recognize? scaffold hfound)

theorem scaffold_eq_other {action : Action} (h : action.scaffold.isRecognized = false) :
    action.scaffold = .other action := by
  rcases action.scaffold_eq_other_or with hother | ⟨hrecognized, -⟩
  · exact hother
  · rw [hrecognized] at h
    cases h

end Action

namespace Scaffold

theorem action_other (action : Action) : (other action).action = action := rfl

/-- **What is equal to a written action is recognized as what that was written for.** -/
theorem scaffold_of_equal {scaffold : Scaffold} (h : scaffold.isRecognized = true)
    {action : Action} (hequal : scaffold.action.equal action = true) :
    action.scaffold = scaffold := by
  obtain ⟨hid, hparameters⟩ : scaffold.identifier = action.identifier ∧
      (Json.object scaffold.entries).equal action.parameters.json = true := by
    rw [Action.equal, Bool.and_eq_true, beq_iff_eq] at hequal
    exact hequal
  have hrecognize : recognize? scaffold.identifier (.object scaffold.entries) =
      recognize? scaffold.identifier action.parameters.json :=
    recognize?_of_equal scaffold.distinct_entries hparameters
      fun houtput _ hfound ↦ length_attachments?_entries h houtput hfound
  rw [Action.scaffold, ← hid, ← hrecognize, recognize?_entries h, Option.getD_some]

/-- A written action is recognized as what it was written for. -/
theorem scaffold_action {scaffold : Scaffold} (h : scaffold.isRecognized = true) :
    scaffold.action.scaffold = scaffold :=
  scaffold_of_equal h scaffold.action.equal_refl

/-- **Recognition undoes writing.** So different scaffolding actions are written as different data,
and recognizing what was written for a recognized action gives nothing new. -/
theorem recognition_undoes_writing :
    (∀ scaffold : Scaffold, scaffold.isRecognized = true → scaffold.action.scaffold = scaffold) ∧
      (∀ first second : Scaffold, first.isRecognized = true → second.isRecognized = true →
        first.action.equal second.action = true → first = second) ∧
      ∀ action : Action, action.scaffold.action.scaffold = action.scaffold := by
  refine ⟨fun _ ↦ scaffold_action, fun first second hfirst hsecond hequal ↦ ?_, fun action ↦ ?_⟩
  · rw [← scaffold_of_equal hfirst hequal, scaffold_action hsecond]
  · rcases action.scaffold_eq_other_or with hother | ⟨hrecognized, -⟩
    · rw [hother, action_other, hother]
    · exact scaffold_action hrecognized

/-- Entries of a dictionary with a key twice, one of them nested, and an empty key. -/
def twiceKeyed : List (String × DictionaryValue) :=
  [("k", .text "v"), ("", .nested []), ("k", .nested [("", ""), ("x", "1"), ("x", "2")])]

/-- A dictionary is read back entry by entry, and their order is not lost. -/
theorem recognition_undoes_writing_twiceKeyed :
    (dictionary twiceKeyed).action.scaffold = dictionary twiceKeyed ∧
      (dictionary twiceKeyed).action.equal (dictionary twiceKeyed.reverse).action ≠ true := by
  obtain ⟨hread, hinjective, -⟩ := recognition_undoes_writing
  refine ⟨hread (dictionary twiceKeyed) rfl, fun hequal ↦ ?_⟩
  exact absurd (hinjective _ _ rfl rfl hequal) (by decide)

end Scaffold

namespace Action

/-- **What recognition loses.** An action that is not recognized is written out as it is. One that
is recognized is written out as equal data exactly when it is equal to something written, that is,
when it has exactly the shape of a kind; and then it is recognized as that. -/
theorem equal_action_scaffold_iff (action : Action) :
    (action.scaffold.isRecognized = false → action.scaffold.action = action) ∧
      (action.scaffold.action.equal action = true ↔
        action.scaffold.isRecognized = false ∨
          ∃ shape : Scaffold, shape.isRecognized = true ∧ shape.action.equal action = true) ∧
      ∀ shape : Scaffold, shape.isRecognized = true → shape.action.equal action = true →
        action.scaffold = shape := by
  have hother (h : action.scaffold.isRecognized = false) : action.scaffold.action = action := by
    rw [scaffold_eq_other h, Scaffold.action_other]
  refine ⟨hother, ⟨fun hequal ↦ ?_, ?_⟩, fun shape hrecognized hequal ↦
    Scaffold.scaffold_of_equal hrecognized hequal⟩
  · cases hrecognized : action.scaffold.isRecognized with
    | false => exact .inl rfl
    | true => exact .inr ⟨action.scaffold, hrecognized, hequal⟩
  · rintro (hrecognized | ⟨shape, hrecognized, hequal⟩)
    · rw [hother hrecognized, action.equal_refl]
    · rwa [Scaffold.scaffold_of_equal hrecognized hequal]

/-- The end of a branch with its keys in another order. -/
def closing : Action where
  identifier := Scaffold.conditionalId
  parameters := ⟨[("WFControlFlowMode", Scaffold.endMode), ("GroupingIdentifier", .string "G"),
    ("UUID", .string "U")], by decide⟩

/-- The end of a branch is recognized and kept, whatever the order of its keys. -/
theorem equal_action_scaffold_closing :
    (Scaffold.endIf "U" "G").action.equal closing = true ∧
      closing.scaffold = .endIf "U" "G" ∧ closing.scaffold.action.equal closing = true := by
  have hshape : (Scaffold.endIf "U" "G").action.equal closing = true := by decide
  obtain ⟨-, hkept, hrecognized⟩ := equal_action_scaffold_iff closing
  exact ⟨hshape, hrecognized _ rfl hshape, hkept.2 (.inr ⟨_, rfl, hshape⟩)⟩

/-- An action that decodes: one for encodings, with the mode set to the opposite. -/
def decoding : Action where
  identifier := Scaffold.base64EncodeId
  parameters := ⟨[("UUID", .string "B"), ("WFInput", Scaffold.attachedOutput "A"),
    ("WFEncodeMode", .string "Decode")], by decide⟩

/-- **A decoding is recognized as an encoding, and written out as one.** -/
theorem not_equal_action_scaffold_decoding :
    decoding.scaffold = .base64Encode "A" "B" ∧
      decoding.scaffold.action.equal decoding = false := by
  decide

end Action

end ActionTools
