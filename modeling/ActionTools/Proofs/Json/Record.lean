import ActionTools.Json.Record
import ActionTools.Proofs.Json.Canonical
import ActionTools.Proofs.Json.Nesting

/-!
# Reading what records are written as

The document that a value is written as has that value again, as long as no mapping in it repeats a
key (`Document.json?_document`). Sequences and maps are read item by item, so a reader that undoes
a writer for the items undoes it for the whole (`Document.list?_document`,
`Document.nameMap?_document`).
-/

namespace ActionTools

/-! ### Merging keys that are distinct -/

namespace Entries

variable {α : Type}

/-- Setting pairs with new and distinct keys appends them. -/
theorem foldl_set_of_nodup {pairs entries : Entries α} (h : (keys (entries ++ pairs)).Nodup) :
    pairs.foldl (fun acc pair ↦ set pair.1 pair.2 acc) entries = entries ++ pairs := by
  induction pairs generalizing entries with
  | nil => simp
  | cons pair rest ih =>
    have hsplit : entries ++ pair :: rest = entries ++ [pair] ++ rest := by simp
    have hfresh : pair.1 ∉ keys entries := fun hmem ↦ by
      rw [keys_append] at h
      exact (List.nodup_append.1 h).2.2 _ hmem _ (List.mem_cons_self ..) rfl
    rw [List.foldl_cons, set_of_not_mem hfresh, ih (hsplit ▸ h), hsplit]

/-- Pairs with distinct keys stay as they are. -/
theorem merge_of_nodup {pairs : Entries α} (h : (keys pairs).Nodup) : merge pairs = pairs :=
  @foldl_set_of_nodup α pairs [] h

end Entries

namespace Json

variable {α : Type} {write : α → Json}

/-- A map is one level deeper than its values. -/
theorem depth_ofNameMap_le {bound : Nat} (h : ∀ value, (write value).depth ≤ bound)
    (map : NameMap α) : (ofNameMap write map).depth ≤ bound + 1 := by
  refine depth_object_le_iff.2 fun entry hentry ↦ ?_
  obtain ⟨pair, -, rfl⟩ := List.mem_map.1 hentry
  exact h pair.2

theorem readsBack_ofNameMap (h : ∀ value, (write value).ReadsBack) (map : NameMap α) :
    (ofNameMap write map).ReadsBack := by
  refine readsBack_object.2 fun entry hentry ↦ ?_
  obtain ⟨pair, -, rfl⟩ := List.mem_map.1 hentry
  exact h pair.2

end Json

namespace Document

/-! ### Values of documents -/

/-- Documents of items are read as the items when each of them is. -/
theorem jsonItems?_map {items : List Json}
    (h : ∀ item ∈ items, item.document.json? = some item) :
    jsonItems? (items.map Json.document) = some items := by
  induction items with
  | nil => rfl
  | cons item rest ih =>
    obtain ⟨hitem, hrest⟩ := List.forall_mem_cons.1 h
    rw [List.map_cons, jsonItems?, hitem, ih hrest]
    rfl

theorem jsonEntries?_map {entries : List (String × Json)}
    (h : ∀ entry ∈ entries, entry.2.document.json? = some entry.2) :
    jsonEntries? (entries.map fun entry ↦ (entry.1, entry.2.document)) = some entries := by
  induction entries with
  | nil => rfl
  | cons entry rest ih =>
    obtain ⟨hentry, hrest⟩ := List.forall_mem_cons.1 h
    rw [List.map_cons, jsonEntries?, hentry, ih hrest]
    rfl

/-- **The document of a value that repeats no key has that value.** -/
theorem json?_document {json : Json} (h : json.Distinct) : json.document.json? = some json := by
  induction json with
  | null => rfl
  | bool value => rfl
  | number value => rfl
  | string value => rfl
  | array items ih =>
    rw [Json.document, json?, Json.documentItems_eq,
      jsonItems?_map fun item hitem ↦ ih item hitem (h.of_mem_items hitem)]
    rfl
  | object entries ih =>
    rw [Json.document, json?, Json.documentEntries_eq,
      jsonEntries?_map fun entry hentry ↦ ih entry hentry (h.of_mem_entries hentry),
      Option.map_some, Entries.merge_of_nodup (Json.distinct_object.1 h).1]

/-- What is read as a tree is the value of that tree. -/
theorem json?_eq_of_tree? {document : Document} {tree : Tree} (h : document.tree? = some tree) :
    document.json? = some tree.json := by
  rw [← map_json_tree?, h, Option.map_some]

/-- A tree is read back: its keys are distinct, so nothing is lost in merging them. -/
theorem tree?_document (tree : Tree) : tree.json.document.tree? = some tree := by
  have hjson : tree.json.document.tree?.map Tree.json = some tree.json :=
    (map_json_tree? _).trans (json?_document tree.distinct)
  obtain ⟨⟨json, hdistinct⟩, hfound, rfl⟩ := Option.map_eq_some_iff.1 hjson
  exact hfound

/-- A mapping is read back, and it is no other kind of value. -/
theorem mapping?_document (mapping : Mapping) :
    mapping.json.document.mapping? = some mapping := by
  have htree : mapping.json.document.tree? = some mapping.tree := tree?_document mapping.tree
  rw [Document.mapping?, htree]
  rfl

theorem json?_eq_of_mapping? {document : Document} {mapping : Mapping}
    (h : document.mapping? = some mapping) : document.json? = some mapping.json := by
  obtain ⟨⟨json, hdistinct⟩, htree, hmapping⟩ := Option.bind_eq_some_iff.1 h
  rw [json?_eq_of_tree? htree]
  cases json with
  | object entries =>
    cases hmapping
    rfl
  | _ => cases hmapping

/-! ### Readers -/

variable {α : Type} {write : α → Json} {read : Document → Option α}

theorem string?_document (text : String) : (Json.string text).document.string? = some text := rfl

theorem bool?_document (value : Bool) : (Json.bool value).document.bool? = some value := rfl

/-- A reader that undoes a writer for each item undoes it for all of them. -/
theorem mapM_map {α β : Type} {f : α → β} {g : β → Option α} {items : List α}
    (h : ∀ item ∈ items, g (f item) = some item) : (items.map f).mapM g = some items := by
  induction items with
  | nil => rfl
  | cons item rest ih =>
    obtain ⟨hitem, hrest⟩ := List.forall_mem_cons.1 h
    rw [List.map_cons, List.mapM_cons, hitem, ih hrest]
    rfl

/-- A list is read back when each of its members is. -/
theorem list?_document {items : List α}
    (h : ∀ item ∈ items, read (write item).document = some item) :
    list? read (Json.array (items.map write)).document = some items := by
  rw [Json.document, Json.documentItems_eq, List.map_map, list?]
  exact mapM_map h

/-- What is read as a list was read item by item. -/
theorem mem_of_mapM {β : Type} {read : β → Option α} {items : List β} {values : List α}
    (h : items.mapM read = some values) :
    ∀ value ∈ values, ∃ item ∈ items, read item = some value := by
  induction items generalizing values with
  | nil =>
    cases h
    exact fun value hvalue ↦ absurd hvalue List.not_mem_nil
  | cons item rest ih =>
    rw [List.mapM_cons] at h
    obtain ⟨value, hvalue, h⟩ := Option.bind_eq_some_iff.1 h
    obtain ⟨others, hothers, h⟩ := Option.bind_eq_some_iff.1 h
    cases h
    refine List.forall_mem_cons.2 ⟨⟨item, .head _, hvalue⟩, fun other hother ↦ ?_⟩
    obtain ⟨item', hitem', hread⟩ := ih hothers other hother
    exact ⟨item', .tail _ hitem', hread⟩

/-- Reading members one by one gives nothing when one of them cannot be read. -/
theorem mapM_eq_none {β : Type} {read : β → Option α} {items : List β} {item : β}
    (hmem : item ∈ items) (h : read item = none) : items.mapM read = none := by
  induction items with
  | nil => exact absurd hmem List.not_mem_nil
  | cons first rest ih =>
    rw [List.mapM_cons]
    rcases List.mem_cons.1 hmem with rfl | hmem
    · rw [h]
      rfl
    · rw [ih hmem]
      cases read first <;> rfl

/-- A sequence that is read from its text is not nested too deep when no item is. -/
theorem depth_le_of_list? {β : Type} {read : Document → Option β} {items : List α}
    {values : List β} {depth : Nat} (hlimit : depth < nestingLimit)
    (hread : ∀ item ∈ items, ∀ value, read ((write item).reread (depth + 1)) = some value →
      depth + 1 + (write item).depth ≤ nestingLimit)
    (h : ((Json.array (items.map write)).reread depth).list? read = some values) :
    depth + (Json.array (items.map write)).depth ≤ nestingLimit := by
  rw [Json.reread, arrayAt, if_pos hlimit, Json.rereadItems_eq, List.map_map, list?] at h
  have hitems : ∀ item ∈ items, (write item).depth ≤ nestingLimit - (depth + 1) := by
    intro item hitem
    cases hfound : read ((write item).reread (depth + 1)) with
    | none =>
      rw [mapM_eq_none (List.mem_map_of_mem hitem) hfound] at h
      cases h
    | some value =>
      have hroom := hread item hitem value hfound
      omega
  have hdepth : (Json.array (items.map write)).depth ≤ nestingLimit - (depth + 1) + 1 :=
    Json.depth_array_le_iff.2 (List.forall_mem_map.2 hitems)
  omega

/-- A map is read back when each of its values is. -/
theorem nameMap?_document {map : NameMap α}
    (h : ∀ entry ∈ map.entries, read (write entry.2).document = some entry.2) :
    nameMap? read (Json.ofNameMap write map).document = some map := by
  have hentries : (map.entries.map fun entry ↦ (entry.1, (write entry.2).document)).mapM
      (fun entry ↦ (read entry.2).map fun value ↦ (entry.1, value)) = some map.entries :=
    mapM_map fun entry hentry ↦ by rw [h entry hentry, Option.map_some]
  rw [Json.ofNameMap, Json.document, Json.documentEntries_eq, List.map_map, nameMap?]
  exact (congrArg (Option.map NameMap.ofList) hentries).trans (congrArg some map.ofList_entries)

/-! ### Fields -/

/-- A mapping of known fields is a record, whichever of them it has. -/
theorem fields?_document {names : List String} (hnames : names.Nodup)
    {entries : List (String × Json)} (h : (Entries.keys entries).Sublist names) :
    (Json.object entries).document.fields? names =
      some (entries.map fun entry ↦ (entry.1, entry.2.document)) := by
  have hkeys : Entries.keys (entries.map fun entry ↦ (entry.1, entry.2.document)) =
      Entries.keys entries := by
    simp [Entries.keys]
  have hknown : ∀ entry ∈ entries.map fun entry ↦ (entry.1, entry.2.document),
      names.contains entry.1 = true := fun entry hentry ↦
    List.contains_iff_mem.2 (h.subset (hkeys ▸ List.mem_map_of_mem hentry))
  rw [Json.document, Json.documentEntries_eq, fields?]
  simp only [List.filter_eq_self.2 hknown, hkeys, if_pos (h.nodup hnames)]

/-- An optional field is written under its name or not at all. -/
theorem keys_optionalField_sublist (name : String) (write : α → Json) (value : Option α) :
    (Entries.keys (Json.optionalField name write value)).Sublist [name] := by
  cases value with
  | none => exact List.nil_sublist _
  | some value => exact List.Sublist.refl _

theorem mem_optionalField {name : String} {value : Option α} {entry : String × Json}
    (h : entry ∈ Json.optionalField name write value) :
    ∃ found, value = some found ∧ entry = (name, write found) := by
  cases value with
  | none => exact absurd h List.not_mem_nil
  | some value => exact ⟨value, rfl, List.mem_singleton.1 h⟩

/-- An optional field is found under its name when there is a value, and under no other. -/
theorem lookup_optionalField (key name : String) (write : α → Json) (value : Option α) :
    (Json.optionalField name write value).lookup key =
      if key = name then value.map write else none := by
  cases value with
  | none => simp [Json.optionalField]
  | some value =>
    by_cases h : key = name
    · simp [Json.optionalField, h]
    · have hkey : (key == name) = false := beq_false_of_ne h
      simp [Json.optionalField, List.lookup_cons, hkey, h]

/-- The document of a field is that of the value under its name. -/
theorem lookup_document (entries : Entries Json) (name : String) :
    (entries.map fun entry ↦ (entry.1, entry.2.document)).lookup name =
      (entries.lookup name).map Json.document :=
  Entries.lookup_map (fun _ json ↦ Json.document json) name entries

/-- A required field that has been written is read back. -/
theorem Fields.required_document {entries : Entries Json} {name : String} {json : Json} {value : α}
    (hlookup : entries.lookup name = some json) (hread : read json.document = some value) :
    Fields.required (entries.map fun entry ↦ (entry.1, entry.2.document)) name read =
      some value := by
  rw [Fields.required, lookup_document, hlookup, Option.map_some, Option.bind_some, hread]

/-- A field with a default is read back as it has been written, and the default is not used. -/
theorem Fields.withDefault_document {entries : Entries Json} {name : String} {json : Json}
    {value default : α} (hlookup : entries.lookup name = some json)
    (hread : read json.document = some value) :
    Fields.withDefault (entries.map fun entry ↦ (entry.1, entry.2.document)) name default read =
      some value := by
  rw [Fields.withDefault, lookup_document, hlookup, Option.map_some]
  exact hread

/-- An optional field is read back when its reader does not read `null`. -/
theorem Fields.optional_document {entries : Entries Json} {name : String} {value : Option α}
    (hlookup : entries.lookup name = value.map write)
    (hread : ∀ value, read (write value).document = some value) (hnull : read .null = none) :
    Fields.optional (entries.map fun entry ↦ (entry.1, entry.2.document)) name read =
      some value := by
  rw [Fields.optional, lookup_document, hlookup]
  cases value with
  | none => rfl
  | some value =>
    have hsome := hread value
    rw [Option.map_some, Option.map_some]
    split
    · next heq => cases heq
    · next heq =>
      rw [Option.some.inj heq, hnull] at hsome
      cases hsome
    · next heq => rw [← Option.some.inj heq, hsome, Option.map_some]

/-- A field is within the bounds of its record, one level less deep. -/
theorem Within.of_fields? {width levels : Nat} {document : Document}
    (h : Within width (levels + 1) document) {names : List String} {fields : Fields}
    (hfields : document.fields? names = some fields) {name : String} {field : Document}
    (hlookup : fields.lookup name = some field) : Within width levels field := by
  have hmem : (name, field) ∈ fields := Entries.mem_of_lookup hlookup
  cases h with
  | object hentries =>
    simp only [fields?] at hfields
    split at hfields
    · cases hfields
      exact hentries _ (List.mem_filter.1 hmem).1
    · cases hfields
  | array hlength hitems =>
    simp only [fields?] at hfields
    split at hfields
    · cases hfields
      exact hitems _ (List.of_mem_zip hmem).2
    · cases hfields
  | _ => cases hfields

end Document

end ActionTools
