import ActionTools.Json.Tree

/-!
# JSON text as read

A `Document` is a text that follows the grammar of JSON, before anything is asked of it. It keeps
what a value does not: repeated keys, and `unreadable` for a part that is grammatical but names no
value — a number too large for a double, a string with half of a surrogate pair, or a sequence or
mapping with too many others around it. A record reader that skips a field it does not know skips
such a part as well; whatever reads it fails.

`Document.tree?` is the value of a document, repeated keys merged. `Json.document` is the document
a value is written as.
-/

namespace ActionTools

/-- A text in the grammar of JSON. -/
inductive Document where
  | null
  | bool (value : Bool)
  | number (value : Number)
  | string (value : String)
  | array (items : List Document)
  | object (entries : List (String × Document))
  /-- A part that follows the grammar and names no value. -/
  | unreadable

namespace Document

instance : Inhabited Document := ⟨null⟩

/-! ### Values of documents -/

mutual

/-- The value of a document: repeated keys are merged, and an unreadable part spoils the whole. -/
def json? : Document → Option Json
  | .null => some .null
  | .bool value => some (.bool value)
  | .number value => some (.number value)
  | .string value => some (.string value)
  | .array items => (jsonItems? items).map .array
  | .object entries => (jsonEntries? entries).map fun values ↦ .object (Entries.merge values)
  | .unreadable => none

/-- The values of items, if all have one. -/
def jsonItems? : List Document → Option (List Json)
  | [] => some []
  | item :: rest => item.json?.bind fun value ↦ (jsonItems? rest).map (value :: ·)

/-- The values of entries, if all have one. -/
def jsonEntries? : List (String × Document) → Option (List (String × Json))
  | [] => some []
  | (key, entry) :: rest =>
    entry.json?.bind fun value ↦ (jsonEntries? rest).map ((key, value) :: ·)

end

mutual

/-- The value of a document repeats no key. -/
theorem distinct_of_json? : ∀ (document : Document) {json : Json},
    document.json? = some json → json.Distinct
  | .null, json, h | .bool _, json, h | .number _, json, h | .string _, json, h => by
    simp only [json?, Option.some.injEq] at h
    subst h
    trivial
  | .array items, json, h => by
    obtain ⟨values, hvalues, rfl⟩ := Option.map_eq_some_iff.1 h
    exact Json.distinct_array.2 (distinct_of_jsonItems? items hvalues)
  | .object entries, json, h => by
    obtain ⟨values, hvalues, rfl⟩ := Option.map_eq_some_iff.1 h
    exact Json.distinct_object_merge (distinct_of_jsonEntries? entries hvalues)
  | .unreadable, _, h => by cases h

/-- The values of items repeat no key. -/
theorem distinct_of_jsonItems? : ∀ (items : List Document) {values : List Json},
    jsonItems? items = some values → ∀ value ∈ values, value.Distinct
  | [], values, h => by
    cases h
    simp
  | item :: rest, values, h => by
    obtain ⟨value, hvalue, h⟩ := Option.bind_eq_some_iff.1 h
    obtain ⟨others, hothers, rfl⟩ := Option.map_eq_some_iff.1 h
    intro other hmem
    rcases List.mem_cons.1 hmem with rfl | hmem
    · exact distinct_of_json? item hvalue
    · exact distinct_of_jsonItems? rest hothers other hmem

/-- The values of entries repeat no key. -/
theorem distinct_of_jsonEntries? : ∀ (entries : List (String × Document))
    {values : List (String × Json)}, jsonEntries? entries = some values →
      ∀ entry ∈ values, entry.2.Distinct
  | [], values, h => by
    cases h
    simp
  | (key, entry) :: rest, values, h => by
    obtain ⟨value, hvalue, h⟩ := Option.bind_eq_some_iff.1 h
    obtain ⟨others, hothers, rfl⟩ := Option.map_eq_some_iff.1 h
    intro other hmem
    rcases List.mem_cons.1 hmem with rfl | hmem
    · exact distinct_of_json? entry hvalue
    · exact distinct_of_jsonEntries? rest hothers other hmem

end

/-- The value of a document as a tree. -/
def tree? (document : Document) : Option Tree :=
  match h : document.json? with
  | some json => some ⟨json, distinct_of_json? document h⟩
  | none => none

/-- A document is read as the tree of the value it stands for. -/
theorem map_json_tree? (document : Document) : document.tree?.map Tree.json = document.json? := by
  unfold tree?
  split <;> simp_all

end Document

/-! ### Documents of values -/

mutual

/-- The document that a value is written as. -/
def Json.document : Json → Document
  | .null => .null
  | .bool value => .bool value
  | .number value => .number value
  | .string value => .string value
  | .array items => .array (Json.documentItems items)
  | .object entries => .object (Json.documentEntries entries)

/-- The documents of items. -/
def Json.documentItems : List Json → List Document
  | [] => []
  | item :: rest => item.document :: Json.documentItems rest

/-- The documents of the values of entries. -/
def Json.documentEntries : List (String × Json) → List (String × Document)
  | [] => []
  | (key, value) :: rest => (key, value.document) :: Json.documentEntries rest

end

/-- The document that a tree is written as. -/
def Tree.document (tree : Tree) : Document := tree.json.document

end ActionTools
