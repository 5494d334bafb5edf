import ActionTools.Proofs.Invocation
import ActionTools.Proofs.Rediscovery

/-!
# Instances are templates again

A call fills references of a template. When what it puts in are texts, nothing that generation looks
at changes. A filled reference names another variable, and is a reference still. A mapping around it
has the same texts under its keys as before, so it is a reference exactly if it was one. Hence the
references are at the same places, in the same order (`Json.references_fillWith`), and the intent
that is addressed stays. So generation repeats itself, whatever names had to be displaced
(`Action.generate_instantiate`).
-/

namespace ActionTools

namespace Json

variable {value? : Path → Option Json}

/-! ### Filled values -/

/-- Under keys that filling does not set, texts are found as before. -/
theorem get?_fillWith_bind_string? (json : Json) (key : String) (hkey : key ≠ variableNameField) :
    ((json.fillWith value?).get? key).bind string? = (json.get? key).bind string? := by
  cases json with
  | object entries =>
    cases hroot : value? [] with
    | some value => rw [fillWith, hroot, get?, get?, Entries.lookup_set_of_ne hkey]
    | none => rw [fillWith, hroot, get?, get?, lookup_fillEntriesWith_bind_string?]
  | _ => rfl

/-! ### References of filled values -/

/-- Only references get values, and these are texts. -/
def RenamesReferences (json : Json) (value? : Path → Option Json) : Prop :=
  ∀ path value, value? path = some value →
    (∃ text, value = .string text) ∧
      ∃ leaf, json.atPath? path = some leaf ∧ leaf.isReference = true

/-- What is renamed below a member is renamed in that member. -/
theorem RenamesReferences.member {json child : Json} (h : json.RenamesReferences value?)
    (segment : Segment) (hchild : json.member? segment = some child) :
    child.RenamesReferences fun path ↦ value? (segment :: path) := by
  intro path value hvalue
  obtain ⟨htext, leaf, hleaf, hreference⟩ := h _ _ hvalue
  rw [atPath?, hchild, Option.bind_some] at hleaf
  exact ⟨htext, leaf, hleaf, hreference⟩

theorem map_references_fillEntriesWith {entries : Entries Json}
    (h : ∀ entry ∈ entries,
      (entry.2.fillWith fun path ↦ value? (.key entry.1 :: path)).references =
        entry.2.references) :
    (fillEntriesWith value? entries).map (fun entry ↦ (entry.1, entry.2.references)) =
      entries.map fun entry ↦ (entry.1, entry.2.references) := by
  induction entries with
  | nil => rfl
  | cons entry rest ih =>
    obtain ⟨key, value⟩ := entry
    obtain ⟨hentry, hrest⟩ := List.forall_mem_cons.1 h
    rw [fillEntriesWith, List.map_cons, List.map_cons, hentry, ih hrest]

/-- **Renaming the variables of references leaves the references where they are.** -/
theorem references_fillWith {json : Json} (hdistinct : json.Distinct)
    (h : json.RenamesReferences value?) : (json.fillWith value?).references = json.references := by
  rw [references_fillWith_eq_flatMap hdistinct fun path value hvalue ↦ (h path value hvalue).2]
  refine flatMap_foundAt_of_texts json (fun path value hvalue ↦ ?_) json.references
  obtain ⟨⟨text, rfl⟩, -⟩ := h path value hvalue
  exact Option.some_ne_none text

end Json

/-- The places of a tool are references of its template under top-level keys. -/
def Metadata.Referencing (metadata : Metadata) : Prop :=
  ∀ name path, metadata.paths.get? name = some path → ∃ key rest leaf, path = .key key :: rest ∧
    metadata.template.parameters.json.atPath? path = some leaf ∧ leaf.isReference = true

namespace Spec

variable {spec : Spec} {parameters : Mapping} {filled : Action}

/-- A call that is answered has filled the template. -/
theorem fillWith_of_instantiate (hfillable : spec.metadata.Fillable)
    (h : spec.instantiate parameters = .ok filled) :
    filled.identifier = spec.metadata.template.identifier ∧
      filled.parameters.json =
        spec.metadata.template.parameters.json.fillWith (spec.given? parameters) := by
  cases hunknown : spec.unknownParameter? parameters with
  | some name => rw [instantiate_of_unknown hunknown] at h; cases h
  | none =>
    cases hmissing : spec.missingParameter? parameters with
    | some name => rw [instantiate_of_missing hunknown hmissing] at h; cases h
    | none =>
      obtain ⟨action, haction, hresult⟩ := exists_instantiate hfillable hunknown hmissing
      cases h.symm.trans haction
      exact hresult

/-- The template as a whole is not filled. -/
theorem given?_nil (hfillable : spec.metadata.Fillable) (h : spec.metadata.Referencing) :
    spec.given? parameters [] = none := by
  by_contra hvalue
  obtain ⟨value, hvalue⟩ := Option.ne_none_iff_exists'.1 hvalue
  obtain ⟨name, -, hname, -⟩ := (given?_eq_some_iff hfillable).1 hvalue
  obtain ⟨_, _, _, hpath, -⟩ := h name [] hname
  cases hpath

/-- A call with texts renames references. -/
theorem renamesReferences_given? (hfillable : spec.metadata.Fillable)
    (h : spec.metadata.Referencing)
    (htexts : ∀ entry ∈ parameters.entries, ∃ text, entry.2 = .string text) :
    spec.metadata.template.parameters.json.RenamesReferences (spec.given? parameters) := by
  intro path value hvalue
  obtain ⟨name, tree, hname, htree, rfl⟩ := (given?_eq_some_iff hfillable).1 hvalue
  obtain ⟨_, _, leaf, -, hleaf⟩ := h name path hname
  have hlookup := parameters.map_json_get? name
  rw [htree] at hlookup
  exact ⟨htexts _ (Entries.mem_of_lookup hlookup.symm), leaf, hleaf⟩

end Spec

namespace Action

variable {lookup : Lookup} {policy : CollisionPolicy} {action filled : Action} {spec : Spec}
  {parameters : Mapping}

/-- The places of a generated tool are references. -/
theorem referencing (h : action.generate lookup policy = .ok spec) : spec.metadata.Referencing := by
  intro name path hname
  have hmem := (exists_get?_paths_iff h).1 ⟨name, hname⟩
  obtain ⟨leaf, hleaf⟩ :=
    Json.hasReferenceAt_of_mem_referencesInEntries action.parameters.distinct hmem
  obtain ⟨⟨key, value⟩, -, rest, -, rfl⟩ := Json.mem_referencesInEntries.1 hmem
  rw [template_generate h]
  exact ⟨key, rest, leaf, rfl, hleaf⟩

/-! ### Generating again -/

/-- An action whose references have values, none of them as a whole. -/
theorem entries_of_json_parameters {value? : Path → Option Json} (hroot : value? [] = none)
    (h : filled.parameters.json = action.parameters.json.fillWith value?) :
    filled.parameters.entries = Json.fillEntriesWith value? action.parameters.entries := by
  change Json.object _ = (Json.object _).fillWith value? at h
  rw [Json.fillWith, hroot] at h
  exact Json.object.inj h

/-- The intent is told by texts, and filling leaves texts alone. -/
theorem appIntent?_of_entries {value? : Path → Option Json}
    (h : filled.parameters.entries = Json.fillEntriesWith value? action.parameters.entries) :
    filled.appIntent? = action.appIntent? := by
  have hdescriptor : filled.parameters.json.get? "AppIntentDescriptor" =
      (action.parameters.json.get? "AppIntentDescriptor").map
        (Json.fillWith fun path ↦ value? (.key "AppIntentDescriptor" :: path)) := by
    show filled.parameters.entries.lookup _ = _
    rw [h, Json.lookup_fillEntriesWith]
    rfl
  rw [appIntent?, appIntent?, hdescriptor]
  cases action.parameters.json.get? "AppIntentDescriptor" with
  | none => rfl
  | some descriptor =>
    simp only [Option.map_some, Option.bind_eq_bind, Option.bind_some,
      Json.get?_fillWith_bind_string? descriptor "BundleIdentifier" (by decide),
      Json.get?_fillWith_bind_string? descriptor "AppIntentIdentifier" (by decide)]

/-- An action whose references have been renamed has the same references under the same keys. -/
theorem referenceKeys_of_entries {value? : Path → Option Json}
    (hrenames : action.parameters.json.RenamesReferences value?)
    (h : filled.parameters.entries = Json.fillEntriesWith value? action.parameters.entries) :
    filled.referenceKeys = action.referenceKeys := by
  have hdistinct := action.parameters.distinct
  have hreferences : ∀ entry ∈ action.parameters.entries,
      (entry.2.fillWith fun path ↦ value? (.key entry.1 :: path)).references =
        entry.2.references := by
    intro entry hentry
    have hlookup := Entries.lookup_of_mem (Json.distinct_object.1 hdistinct).1 hentry
    exact Json.references_fillWith (hdistinct.of_mem_entries hentry)
      (hrenames.member (.key entry.1) hlookup)
  rw [referenceKeys, referenceKeys, h, Json.map_references_fillEntriesWith hreferences]

/-- What generation looks at is the identifier, the references under each key, and the intent. -/
theorem generate_congr {other : Action} (hid : other.identifier = action.identifier)
    (hkeys : other.referenceKeys = action.referenceKeys)
    (hintent : other.appIntent? = action.appIntent?)
    (h : action.generate lookup policy = .ok spec) :
    other.generate lookup policy =
      .ok { spec with metadata := ⟨other, spec.metadata.paths⟩ } := by
  rw [generate_eq] at h ⊢
  rw [hid, hkeys]
  cases hnamer : (Namer.new action.identifier policy).addKeys action.referenceKeys with
  | error failure => rw [hnamer] at h; cases h
  | ok namer =>
    rw [hnamer] at h
    cases h
    show Except.ok (Spec.mk ⟨(other.named lookup namer.names).definition, none⟩ _) = _
    rw [definition_named_congr hid hintent]
    rfl

/-- **An instance with texts is the same tool again.** Generation succeeds on it, with the same
definition and the same places, whatever optional parameters were left out. -/
theorem generate_instantiate (h : action.generate lookup policy = .ok spec)
    (htexts : ∀ entry ∈ parameters.entries, ∃ text, entry.2 = .string text)
    (hfilled : spec.instantiate parameters = .ok filled) :
    ∃ again, filled.generate lookup policy = .ok again ∧ again.definition = spec.definition ∧
      again.metadata.template = filled ∧ again.metadata.paths = spec.metadata.paths := by
  obtain ⟨hid, hjson⟩ := Spec.fillWith_of_instantiate (fillable h) hfilled
  have hrenames := Spec.renamesReferences_given? (fillable h) (referencing h) htexts
  rw [template_generate h] at hid hjson hrenames
  have hentries := entries_of_json_parameters (Spec.given?_nil (fillable h) (referencing h)) hjson
  exact ⟨_, generate_congr hid (referenceKeys_of_entries hrenames hentries)
    (appIntent?_of_entries hentries) h, rfl, rfl, rfl⟩

/-- A table in which the key `B` of `contending` has a default. -/
def defaulting : Lookup where
  actions := ⟨[("t", ⟨none, none, some [⟨"B", none, none, none, some .null⟩], none⟩)], by decide⟩
  bundles := ∅

/-- A call that leaves out the parameters under `B`. -/
def sparse : Mapping := ⟨[("z", .string "q"), ("A.x.n", .string "p")], by decide⟩

/-- Two parameters are left out, and none of the four names changes. -/
theorem exists_generate_instantiate_contending :
    ∃ spec filled again, contending.generate defaulting .fallback = .ok spec ∧
      spec.instantiate sparse = .ok filled ∧
      filled.generate defaulting .fallback = .ok again ∧
      again.definition = spec.definition ∧ again.metadata.paths = spec.metadata.paths ∧
      spec.metadata.paths.names = ["A.x.n", "B.x.m", "w", "z"] := by
  have h : contending.generate defaulting .fallback = .ok _ := rfl
  have htexts : ∀ entry ∈ sparse.entries, ∃ text, entry.2 = .string text := by simp [sparse]
  obtain ⟨again, hagain, hdefinition, -, hpaths⟩ := generate_instantiate h htexts rfl
  exact ⟨_, _, again, h, rfl, hagain, hdefinition, hpaths, rfl⟩

end Action

end ActionTools
