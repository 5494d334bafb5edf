import ActionTools.Proofs.Filling

/-!
# References after filling

When the references of a value have been filled, the list of references is the old one with some of
its paths replaced (`Json.references_fillWith_eq_flatMap`). A reference that got no value, or a
text, is a reference still, and hides what is inside it as before. One that got any other value is a
plain mapping now: its place is no longer listed, and in its stead come the references in its other
fields and in the value, below its place. No mapping around a filled one becomes a reference or
ceases to be one, because filling changes none of the texts under its keys.

With what is known of filling many places, this says what is found in a tree whose references have
been filled one after the other (`Tree.exists_substituteAll_rediscovers`).
-/

namespace ActionTools

namespace Json

variable {value? : Path → Option Json}

/-! ### References that stay -/

/-- Filling makes no text and leaves every text alone. -/
theorem string?_fillWith (json : Json) : (json.fillWith value?).string? = json.string? := by
  cases json with
  | object entries =>
    obtain ⟨filled, hfilled⟩ := exists_fillWith_object entries value?
    rw [hfilled]
    rfl
  | _ => rfl

/-- Texts are found in filled entries as before. -/
theorem lookup_fillEntriesWith_bind_string? (entries : Entries Json) (key : String) :
    ((fillEntriesWith value? entries).lookup key).bind string? =
      (entries.lookup key).bind string? := by
  rw [lookup_fillEntriesWith, Option.bind_map]
  exact congrArg _ (funext fun json ↦ string?_fillWith json)

/-- A mapping is a reference after its members have been filled if it was one before. -/
theorem isReference_fillEntriesWith (entries : Entries Json) :
    (object (fillEntriesWith value? entries)).isReference = (object entries).isReference := by
  simp only [isReference, get?, lookup_fillEntriesWith_bind_string?]

/-- A reference that gets a value is one still exactly when the value is a text. -/
theorem isReference_set {entries : Entries Json} (h : (object entries).isReference = true)
    (value : Json) :
    (object (Entries.set variableNameField value entries)).isReference =
      value.string?.isSome := by
  rw [isReference, Bool.and_eq_true] at h
  have htag : ((Entries.set variableNameField value entries).lookup "Type").bind string? ==
      some variableTag := by
    rw [Entries.lookup_set_of_ne (by decide)]
    exact h.1
  rw [isReference, get?, get?, htag, Entries.lookup_set_self, Bool.true_and]
  rfl

/-! ### What comes to light -/

/-- What is found where a reference was, after filling: the place itself while it has no value or a
text, and otherwise what is found in the filled reference. -/
def foundAt (json : Json) (value? : Path → Option Json) (path : Path) : List Path :=
  match value? path with
  | none => [path]
  | some value =>
    if value.string?.isSome then [path]
    else (((json.atPath? path).bind fun leaf ↦ leaf.fill? value).elim [] references).map (path ++ ·)

/-- Only references get values. -/
def FillsReferences (json : Json) (value? : Path → Option Json) : Prop :=
  ∀ path value, value? path = some value → json.HasReferenceAt path

theorem FillsReferences.member {json child : Json} (h : json.FillsReferences value?)
    {segment : Segment} (hchild : json.member? segment = some child) :
    child.FillsReferences fun path ↦ value? (segment :: path) := by
  intro path value hvalue
  obtain ⟨child', hchild', hreference⟩ := hasReferenceAt_cons_iff.1 (h _ value hvalue)
  cases hchild.symm.trans hchild'
  exact hreference

/-- What is found below a member after filling is found in the whole under one more segment. -/
theorem map_foundAt_member {json child : Json} {segment : Segment}
    (hchild : json.member? segment = some child) (path : Path) :
    (child.foundAt (fun path ↦ value? (segment :: path)) path).map (segment :: ·) =
      json.foundAt value? (segment :: path) := by
  rw [foundAt, foundAt, atPath?, hchild, Option.bind_some]
  cases value? (segment :: path) with
  | none => rfl
  | some value =>
    dsimp only
    split
    · rfl
    · rw [List.map_map]
      rfl

/-- A filled reference is found again, or what is inside it. -/
theorem references_set_variableName {entries : Entries Json}
    (h : (object entries).isReference = true) {value : Json} (hvalue : value? [] = some value) :
    (object (Entries.set variableNameField value entries)).references =
      (object entries).foundAt value? [] := by
  have hreference := isReference_set h value
  simp only [foundAt, hvalue]
  split
  · rename_i htext
    exact references_of_isReference (hreference.trans htext)
  · exact (List.map_id _).symm

/-- What is found in filled items is what is found in each, in the order of the items. -/
theorem referencesInItems_fillItemsWith {found : Path → List Path} {items : List Json}
    {start : Nat}
    (h : ∀ (index : Nat) (item : Json), items[index]? = some item →
      (item.fillWith fun path ↦ value? (.index (start + index) :: path)).references.map
          (.index (start + index) :: ·) =
        item.references.flatMap fun path ↦ found (.index (start + index) :: path)) :
    referencesInItems start (fillItemsWith value? start items) =
      (referencesInItems start items).flatMap found := by
  induction items generalizing start with
  | nil => rfl
  | cons item rest ih =>
    have hitem := h 0 item rfl
    rw [Nat.add_zero] at hitem
    rw [fillItemsWith, referencesInItems, referencesInItems, List.flatMap_append,
      List.flatMap_map, hitem, ih]
    intro index item hindex
    rw [Nat.add_assoc, Nat.add_comm 1]
    exact h (index + 1) item hindex

/-- What is found in filled entries is what is found in each, in the order of the entries. -/
theorem referencesInEntries_fillEntriesWith {found : Path → List Path} {entries : Entries Json}
    (h : ∀ entry ∈ entries,
      (entry.2.fillWith fun path ↦ value? (.key entry.1 :: path)).references.map
          (.key entry.1 :: ·) =
        entry.2.references.flatMap fun path ↦ found (.key entry.1 :: path)) :
    referencesInEntries (fillEntriesWith value? entries) =
      (referencesInEntries entries).flatMap found := by
  induction entries with
  | nil => rfl
  | cons entry rest ih =>
    obtain ⟨hentry, hrest⟩ := List.forall_mem_cons.1 h
    rw [fillEntriesWith, referencesInEntries, referencesInEntries, List.flatMap_append,
      List.flatMap_map, hentry, ih hrest]

/-- What is found in a filled member is found in the filled value. -/
theorem map_references_fillWith_member {json child : Json} {segment : Segment}
    (hchild : json.member? segment = some child)
    (h : (child.fillWith fun path ↦ value? (segment :: path)).references =
      child.references.flatMap (child.foundAt fun path ↦ value? (segment :: path))) :
    (child.fillWith fun path ↦ value? (segment :: path)).references.map (segment :: ·) =
      child.references.flatMap fun path ↦ json.foundAt value? (segment :: path) := by
  rw [h, List.map_flatMap]
  exact congrArg (List.flatMap · _) (funext (map_foundAt_member hchild))

/-- **What is found after filling references**, in the order in which they were found before. -/
theorem references_fillWith_eq_flatMap {json : Json} (hdistinct : json.Distinct)
    (h : json.FillsReferences value?) :
    (json.fillWith value?).references = json.references.flatMap (json.foundAt value?) := by
  induction json generalizing value? with
  | array items ih =>
    rw [fillWith, references, references]
    refine referencesInItems_fillItemsWith fun index item hitem ↦ ?_
    rw [Nat.zero_add]
    have hmem := List.mem_of_getElem? hitem
    have hchild : (array items).member? (.index index) = some item := hitem
    exact map_references_fillWith_member hchild
      (ih item hmem (hdistinct.of_mem_items hmem) (h.member hchild))
  | object entries ih =>
    cases hroot : value? [] with
    | some value =>
      -- Only a reference gets a value, so this is the one path that was listed.
      have hreference := hasReferenceAt_nil_iff.1 (h [] value hroot)
      rw [fillWith, hroot, references_of_isReference hreference, List.flatMap_singleton]
      exact references_set_variableName hreference hroot
    | none =>
      rw [fillWith, hroot]
      simp only [references, isReference_fillEntriesWith]
      split
      · rw [List.flatMap_singleton, foundAt, hroot]
      · refine referencesInEntries_fillEntriesWith fun entry hentry ↦ ?_
        have hchild : (object entries).member? (.key entry.1) = some entry.2 :=
          Entries.lookup_of_mem (distinct_object.1 hdistinct).1 hentry
        exact map_references_fillWith_member hchild
          (ih entry hentry (hdistinct.of_mem_entries hentry) (h.member hchild))
  | _ => rfl

/-- Where only texts are filled in, the paths stay. -/
theorem flatMap_foundAt_of_texts (json : Json)
    (h : ∀ path value, value? path = some value → value.string? ≠ none) (paths : List Path) :
    paths.flatMap (json.foundAt value?) = paths := by
  have hfound : json.foundAt value? = fun path ↦ [path] := by
    funext path
    rw [foundAt]
    split
    · rfl
    · rename_i value hvalue
      exact if_pos (Option.isSome_iff_ne_none.2 (h path value hvalue))
  rw [hfound, List.flatMap_singleton']

/-- A listed reference that gets a value has it as the name of its variable. -/
theorem atPath?_fillWith_of_mem_references {json value : Json} (hdistinct : json.Distinct)
    (h : ∀ path value, value? path = some value → path ∈ json.references) {path : Path}
    {entries : Entries Json} (hat : json.atPath? path = some (.object entries))
    (hvalue : value? path = some value) :
    (json.fillWith value?).atPath? path =
      some (.object (Entries.set variableNameField value entries)) := by
  refine atPath?_fillWith_of_value hat hvalue fun p q hpath hne ↦ ?_
  -- A filled reference on the way would be the beginning of this one.
  by_contra hinner
  obtain ⟨other, hother⟩ := Option.ne_none_iff_exists'.1 hinner
  have hdiff : p ≠ path := fun heq ↦ hne (List.append_right_eq_self.1 (hpath.trans heq.symm))
  exact (apart_of_mem_references hdistinct (h p other hother) (h path value hvalue) hdiff).1
    ⟨q, hpath⟩

end Json

/-! ### Filling the references of a tree -/

namespace Tree

/-- The value that one of the places has for a path. -/
def valueAt? (places : List (Path × Tree)) (path : Path) : Option Json :=
  (places.lookup path).map Tree.json

/-- What has become of the references of a tree some of which have been filled. -/
structure Rediscovers (tree filled : Tree) (places : List (Path × Tree)) : Prop where
  /-- What is found now, in the order of what was found before. -/
  references_eq :
    filled.references = tree.references.flatMap (tree.json.foundAt (valueAt? places))
  /-- At a filled place stands what the reference there becomes when it is filled alone. -/
  exists_filled : ∀ place ∈ places, ∃ leaf filledLeaf,
    tree.json.atPath? place.1 = some leaf ∧ leaf.fill? place.2.json = some filledLeaf ∧
      filled.json.atPath? place.1 = some filledLeaf
  /-- Where the value is no text there is no reference any more. -/
  not_reference : ∀ place ∈ places, place.2.json.string? = none →
    ¬ filled.json.HasReferenceAt place.1 ∧ place.1 ∉ filled.references
  /-- Texts leave the list of references as it was. -/
  references_of_texts : (∀ place ∈ places, place.2.json.string? ≠ none) →
    filled.references = tree.references

variable {tree : Tree} {places : List (Path × Tree)}

/-- The value at a place is the one that is listed for it, as no place is listed twice. -/
theorem valueAt?_eq_some_iff
    (hpairwise : places.Pairwise fun first second ↦ Path.Apart first.1 second.1) {path : Path}
    {value : Json} :
    valueAt? places path = some value ↔ ∃ given, (path, given) ∈ places ∧ given.json = value := by
  simp only [valueAt?, Option.map_eq_some_iff, lookup_eq_some_iff hpairwise]

/-- References none of which is given twice lie apart. -/
theorem pairwise_apart_of_mem_references (hmem : ∀ place ∈ places, place.1 ∈ tree.references)
    (hnodup : (places.map Prod.fst).Nodup) :
    places.Pairwise fun first second ↦ Path.Apart first.1 second.1 :=
  (List.pairwise_map.1 hnodup).imp_of_mem fun hfirst hsecond hne ↦
    Json.apart_of_mem_references tree.distinct (hmem _ hfirst) (hmem _ hsecond) hne

/-- **A tree that has been filled at some of its references rediscovers them.** All four statements
come from what stands at a filled place: the mapping that was a reference there, with the value for
the name of its variable. It is a reference still if the value is a text. -/
theorem Rediscovers.of_fillWith {filled : Tree}
    (hmem : ∀ place ∈ places, place.1 ∈ tree.references)
    (hpairwise : places.Pairwise fun first second ↦ Path.Apart first.1 second.1)
    (hjson : filled.json = tree.json.fillWith (valueAt? places)) :
    tree.Rediscovers filled places := by
  have hlisted : ∀ path value, valueAt? places path = some value → path ∈ tree.references := by
    intro path value hvalue
    obtain ⟨given, hgiven, -⟩ := (valueAt?_eq_some_iff hpairwise).1 hvalue
    exact hmem _ hgiven
  have hreferences : filled.references =
      tree.references.flatMap (tree.json.foundAt (valueAt? places)) := by
    rw [references, hjson]
    exact Json.references_fillWith_eq_flatMap tree.distinct fun path value hvalue ↦
      Json.hasReferenceAt_of_mem_references tree.distinct (hlisted path value hvalue)
  -- What stands at a place: a mapping that was a reference, with the value for its name.
  have hfilled : ∀ place ∈ places, ∃ entries : Entries Json,
      tree.json.atPath? place.1 = some (.object entries) ∧
        (Json.object entries).isReference = true ∧
        filled.json.atPath? place.1 =
          some (.object (Entries.set variableNameField place.2.json entries)) := by
    intro place hplace
    obtain ⟨entries, hentries, hreference⟩ :=
      Json.exists_object_of_mem_references tree.distinct (hmem place hplace)
    refine ⟨entries, hentries, hreference, ?_⟩
    rw [hjson]
    exact Json.atPath?_fillWith_of_mem_references tree.distinct hlisted hentries
      ((valueAt?_eq_some_iff hpairwise).2 ⟨place.2, hplace, rfl⟩)
  refine ⟨hreferences, fun place hplace ↦ ?_, fun place hplace htext ↦ ?_, fun htexts ↦ ?_⟩
  · obtain ⟨entries, hentries, -, hat⟩ := hfilled place hplace
    exact ⟨_, _, hentries, rfl, hat⟩
  · obtain ⟨entries, -, hreference, hat⟩ := hfilled place hplace
    have hnot : ¬ filled.json.HasReferenceAt place.1 := by
      rintro ⟨leaf, hleaf, hleafReference⟩
      cases hat.symm.trans hleaf
      rw [Json.isReference_set hreference, htext] at hleafReference
      cases hleafReference
    exact ⟨hnot, fun hin ↦ hnot ((Json.mem_references_iff filled.distinct).1 hin).1⟩
  · rw [hreferences]
    refine Json.flatMap_foundAt_of_texts _ (fun path value hvalue ↦ ?_) _
    obtain ⟨given, hgiven, rfl⟩ := (valueAt?_eq_some_iff hpairwise).1 hvalue
    exact htexts _ hgiven

/-- **Filling references one after the other, and what is found then.** It cannot fail, in whatever
order the references are given. -/
theorem exists_substituteAll_rediscovers (hmem : ∀ place ∈ places, place.1 ∈ tree.references)
    (hnodup : (places.map Prod.fst).Nodup) :
    ∃ filled, tree.substituteAll places = .ok filled ∧ tree.Rediscovers filled places := by
  have hpairwise := pairwise_apart_of_mem_references hmem hnodup
  have hat : ∀ place ∈ places, ∃ entries, tree.json.atPath? place.1 = some (.object entries) := by
    intro place hplace
    obtain ⟨entries, hentries, -⟩ :=
      Json.exists_object_of_mem_references tree.distinct (hmem place hplace)
    exact ⟨entries, hentries⟩
  obtain ⟨filled, hfilled, hjson⟩ := substituteAll_eq_fillWith hat hpairwise
  exact ⟨filled, hfilled, .of_fillWith hmem hpairwise hjson⟩

/-- Three references, the first with another inside it. -/
def shadowed : Tree where
  json := .object [
    ("a", .object [("Type", .string variableTag), (variableNameField, .string "x"),
      ("Inner", .array [Json.reference "y"])]),
    ("b", Json.reference "z"), ("c", Json.reference "w")]
  distinct := by decide

/-- A mapping with a reference for the first of them and a text for the last. -/
def shadowedPlaces : List (Path × Tree) :=
  [([.key "c"], .string "q"), ([.key "a"], ⟨.object [("k", Json.reference "u")], by decide⟩)]

/-- The first reference gives way to the one in its value and the one inside it. -/
theorem exists_substituteAll_shadowed :
    (∀ place ∈ shadowedPlaces, place.1 ∈ shadowed.references) ∧
      (shadowedPlaces.map Prod.fst).Nodup ∧
      ∃ filled, shadowed.substituteAll shadowedPlaces = .ok filled ∧
        shadowed.Rediscovers filled shadowedPlaces ∧
        filled.references = [[.key "a", .key variableNameField, .key "k"],
          [.key "a", .key "Inner", .index 0], [.key "b"], [.key "c"]] := by
  have hmem : ∀ place ∈ shadowedPlaces, place.1 ∈ shadowed.references := by decide
  have hnodup : (shadowedPlaces.map Prod.fst).Nodup := by decide
  obtain ⟨filled, hfilled, hrediscovers⟩ := exists_substituteAll_rediscovers hmem hnodup
  exact ⟨hmem, hnodup, filled, hfilled, hrediscovers, hrediscovers.references_eq.trans rfl⟩

end Tree

end ActionTools
