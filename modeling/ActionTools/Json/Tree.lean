import ActionTools.Json.Basic

/-!
# Values whose mappings do not repeat keys

`Json.Distinct` holds of a value when no mapping in it, at any depth, has two entries with one key.
It is decidable, it passes to members (`Distinct.of_mem_items`, `Distinct.of_mem_entries`), and it
is kept by replacing an item (`Distinct.array_set`) and by setting a key (`Distinct.object_set`).

`Tree` and `Mapping` carry the property with the value. They are what the rest of the library calls
a parameter tree and its top level.
-/

namespace ActionTools

namespace Json

/-! ### Distinct keys -/

mutual

/-- No mapping in the value repeats a key. -/
def Distinct : Json → Prop
  | .array items => DistinctItems items
  | .object entries => (Entries.keys entries).Nodup ∧ DistinctEntries entries
  | _ => True

/-- No mapping in any of the items repeats a key. -/
def DistinctItems : List Json → Prop
  | [] => True
  | item :: rest => item.Distinct ∧ DistinctItems rest

/-- No mapping in any of the entries' values repeats a key. -/
def DistinctEntries : List (String × Json) → Prop
  | [] => True
  | (_, value) :: rest => value.Distinct ∧ DistinctEntries rest

end

mutual

/-- Distinctness is decided by looking at every mapping. -/
def decDistinct : (json : Json) → Decidable json.Distinct
  | .null | .bool _ | .number _ | .string _ => isTrue trivial
  | .array items => decDistinctItems items
  | .object entries =>
    match (inferInstance : Decidable (Entries.keys entries).Nodup), decDistinctEntries entries with
    | isTrue h, isTrue h' => isTrue ⟨h, h'⟩
    | isFalse h, _ => isFalse fun both ↦ h both.1
    | _, isFalse h => isFalse fun both ↦ h both.2

/-- Distinctness of items is decided one by one. -/
def decDistinctItems : (items : List Json) → Decidable (DistinctItems items)
  | [] => isTrue trivial
  | item :: rest =>
    match decDistinct item, decDistinctItems rest with
    | isTrue h, isTrue h' => isTrue ⟨h, h'⟩
    | isFalse h, _ => isFalse fun both ↦ h both.1
    | _, isFalse h => isFalse fun both ↦ h both.2

/-- Distinctness of entries is decided one by one. -/
def decDistinctEntries : (entries : List (String × Json)) → Decidable (DistinctEntries entries)
  | [] => isTrue trivial
  | (_, value) :: rest =>
    match decDistinct value, decDistinctEntries rest with
    | isTrue h, isTrue h' => isTrue ⟨h, h'⟩
    | isFalse h, _ => isFalse fun both ↦ h both.1
    | _, isFalse h => isFalse fun both ↦ h both.2

end

instance (json : Json) : Decidable json.Distinct := decDistinct json

@[simp] theorem distinct_null : Distinct .null := trivial

@[simp] theorem distinct_bool (value : Bool) : Distinct (.bool value) := trivial

@[simp] theorem distinct_number (value : Number) : Distinct (.number value) := trivial

@[simp] theorem distinct_string (value : String) : Distinct (.string value) := trivial

/-- The items of a sequence are distinct one by one. -/
theorem distinctItems_iff {items : List Json} :
    DistinctItems items ↔ ∀ item ∈ items, item.Distinct := by
  induction items with
  | nil => simp [DistinctItems]
  | cons item rest ih => simp [DistinctItems, ih]

/-- The values of a mapping are distinct one by one. -/
theorem distinctEntries_iff {entries : List (String × Json)} :
    DistinctEntries entries ↔ ∀ entry ∈ entries, entry.2.Distinct := by
  induction entries with
  | nil => simp [DistinctEntries]
  | cons entry rest ih => simp [DistinctEntries, ih]

@[simp] theorem distinct_array {items : List Json} :
    Distinct (.array items) ↔ ∀ item ∈ items, item.Distinct :=
  distinctItems_iff

/-- A mapping is distinct if its keys are, and so are the values under them. -/
@[simp] theorem distinct_object {entries : List (String × Json)} :
    Distinct (.object entries) ↔
      (Entries.keys entries).Nodup ∧ ∀ entry ∈ entries, entry.2.Distinct := by
  rw [← distinctEntries_iff]
  rfl

theorem Distinct.of_mem_items {items : List Json} (h : Distinct (.array items)) {item : Json}
    (hmem : item ∈ items) : item.Distinct :=
  distinct_array.1 h item hmem

theorem Distinct.of_mem_entries {entries : List (String × Json)} (h : Distinct (.object entries))
    {entry : String × Json} (hmem : entry ∈ entries) : entry.2.Distinct :=
  (distinct_object.1 h).2 entry hmem

/-- Replacing an item by a distinct value keeps a sequence distinct. -/
theorem Distinct.array_set {items : List Json} (h : Distinct (.array items)) (index : Nat)
    {item : Json} (hitem : item.Distinct) : Distinct (.array (items.set index item)) := by
  refine distinct_array.2 fun other hother ↦ ?_
  rcases List.mem_or_eq_of_mem_set hother with hmem | rfl
  · exact h.of_mem_items hmem
  · exact hitem

/-- Appending a distinct value keeps a sequence distinct. -/
theorem Distinct.array_append {items : List Json} (h : Distinct (.array items)) {item : Json}
    (hitem : item.Distinct) : Distinct (.array (items ++ [item])) := by
  refine distinct_array.2 fun other hother ↦ ?_
  rcases List.mem_append.1 hother with hmem | hmem
  · exact h.of_mem_items hmem
  · exact List.mem_singleton.1 hmem ▸ hitem

/-- Setting a key to a distinct value keeps a mapping distinct. -/
theorem Distinct.object_set {entries : List (String × Json)} (h : Distinct (.object entries))
    (key : String) {value : Json} (hvalue : value.Distinct) :
    Distinct (.object (Entries.set key value entries)) := by
  refine distinct_object.2 ⟨Entries.nodup_keys_set (distinct_object.1 h).1, fun entry hentry ↦ ?_⟩
  rcases Entries.mem_set hentry with rfl | hmem
  · exact hvalue
  · exact h.of_mem_entries hmem

/-- Merging repeated keys of entries with distinct values gives a distinct mapping. -/
theorem distinct_object_merge {entries : List (String × Json)}
    (h : ∀ entry ∈ entries, entry.2.Distinct) : Distinct (.object (Entries.merge entries)) :=
  distinct_object.2 ⟨Entries.nodup_keys_merge entries, fun entry hentry ↦
    h entry (Entries.mem_of_mem_merge hentry)⟩

end Json

/-! ### Trees and mappings -/

/-- A value none of whose mappings repeats a key. -/
structure Tree where
  json : Json
  distinct : json.Distinct
  deriving DecidableEq

/-- A mapping without repeated keys, all of whose values are trees. -/
structure Mapping where
  entries : List (String × Json)
  distinct : (Json.object entries).Distinct
  deriving DecidableEq

namespace Tree

/-- The value that holds nothing. -/
def null : Tree := ⟨.null, trivial⟩

/-- A text as a tree. -/
def string (value : String) : Tree := ⟨.string value, trivial⟩

/-- A number as a tree. -/
def number (value : Number) : Tree := ⟨.number value, trivial⟩

instance : Inhabited Tree := ⟨null⟩

/-- A tree is its value: that keys are not repeated is a proposition about it. -/
theorem json_injective : Function.Injective json := by
  rintro ⟨_, _⟩ ⟨_, _⟩ rfl
  rfl

/-- The mapping, when this is one. -/
def mapping? : Tree → Option Mapping
  | ⟨.object entries, h⟩ => some ⟨entries, h⟩
  | _ => none

/-- The items, when this is a sequence. -/
def items? : Tree → Option (List Tree)
  | ⟨.array items, h⟩ => some (items.attach.map fun item ↦ ⟨item.1, h.of_mem_items item.2⟩)
  | _ => none

end Tree

namespace Mapping

/-- The mapping without entries. -/
def empty : Mapping := ⟨[], by decide⟩

instance : EmptyCollection Mapping := ⟨empty⟩

instance : Inhabited Mapping := ⟨empty⟩

/-- The mapping as a value. -/
def json (mapping : Mapping) : Json := .object mapping.entries

/-- The mapping as a tree. -/
def tree (mapping : Mapping) : Tree := ⟨mapping.json, mapping.distinct⟩

/-- The keys, in their order. -/
def keys (mapping : Mapping) : List String := Entries.keys mapping.entries

/-- The entries with their values as trees. -/
def trees (mapping : Mapping) : List (String × Tree) :=
  mapping.entries.attach.map fun entry ↦
    (entry.1.1, ⟨entry.1.2, mapping.distinct.of_mem_entries entry.2⟩)

/-- The value of a key. -/
def get? (mapping : Mapping) (key : String) : Option Tree := mapping.trees.lookup key

/-- The mapping with `key` set to `value`. -/
def set (mapping : Mapping) (key : String) (value : Tree) : Mapping :=
  ⟨Entries.set key value.json mapping.entries, mapping.distinct.object_set key value.distinct⟩

/-- A value taken from a mapping is the one found among its entries. -/
theorem map_json_get? (mapping : Mapping) (key : String) :
    (mapping.get? key).map Tree.json = mapping.entries.lookup key := by
  have hentries : mapping.trees.map (fun pair ↦ (pair.1, pair.2.json)) = mapping.entries := by
    rw [trees, List.map_map]
    exact List.attach_map_subtype_val mapping.entries
  have hlookup := Entries.lookup_map (fun _ tree ↦ Tree.json tree) key mapping.trees
  rw [hentries] at hlookup
  exact hlookup.symm

/-- Nothing is taken from under what is not a key. -/
theorem get?_eq_none_iff {mapping : Mapping} {key : String} :
    mapping.get? key = none ↔ key ∉ mapping.keys := by
  rw [← Option.map_eq_none_iff, map_json_get?]
  exact Entries.lookup_eq_none_iff

end Mapping

end ActionTools
