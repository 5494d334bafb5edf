import ActionTools.Generation
import ActionTools.Proofs.NameMap
import ActionTools.Proofs.Naming.Settling
import ActionTools.Proofs.Reference

/-!
# What a generated tool says about its action

Generation hands the references of an action to a `Namer`, key by key, and reads the tool off the
names it ends with. By then every reference has one name (`Namer.Records`), whichever names it had
on the way; so names and places correspond one to one (`generate_paths_bijective`). A name is
described by what was noted for its key. Every name comes with a key that has references, so none is
left out (`describe_sources`).

Which names those are depends on the references as a set. Equal actions have the same references, if
in a different order, so their tools are read off the same names (`exists_common_names`).
-/

namespace ActionTools

namespace Action

variable {lookup : Lookup} {policy : CollisionPolicy} {action : Action} {spec : Spec}

open Namer

/-! ### The references that are named -/

/-- A key is listed with the references of its value when there are any. -/
theorem mem_referenceKeys {entry : String × List Path} :
    entry ∈ action.referenceKeys ↔
      ∃ value, (entry.1, value) ∈ action.parameters.entries ∧ value.references = entry.2 ∧
        entry.2 ≠ [] := by
  obtain ⟨key, paths⟩ := entry
  simp only [referenceKeys, List.mem_filter, List.mem_map, Prod.mk.injEq, Prod.exists]
  constructor
  · rintro ⟨⟨_, value, hentry, rfl, rfl⟩, hne⟩
    exact ⟨value, hentry, rfl, by simpa using hne⟩
  · rintro ⟨value, hentry, rfl, hne⟩
    exact ⟨⟨key, value, hentry, rfl, rfl⟩, by simpa using hne⟩

/-- No key is listed twice, as parameters have distinct keys. -/
theorem nodup_keys_referenceKeys (action : Action) :
    (Entries.keys action.referenceKeys).Nodup := by
  have hkeys := (Json.distinct_object.1 action.parameters.distinct).1
  have hsub : (Entries.keys action.referenceKeys).Sublist
      (Entries.keys (action.parameters.entries.map fun entry ↦ (entry.1, entry.2.references))) :=
    List.filter_sublist.map Prod.fst
  rw [Entries.keys, Entries.keys, List.map_map] at hsub
  exact hkeys.sublist hsub

/-- No place is listed twice under a key. -/
theorem nodup_referenceKeys (action : Action) : ∀ entry ∈ action.referenceKeys, entry.2.Nodup := by
  intro entry hentry
  obtain ⟨value, hvalue, hpaths, -⟩ := mem_referenceKeys.1 hentry
  rw [← hpaths]
  exact Json.nodup_references (action.parameters.distinct.of_mem_entries hvalue)

/-- The candidates stand at the references under the keys. -/
theorem exists_candidate_iff {path : Path} :
    (∃ c ∈ candidates action.referenceKeys, c.claim.path = path) ↔
      path ∈ Json.referencesInEntries action.parameters.entries := by
  rw [Json.mem_referencesInEntries]
  constructor
  · rintro ⟨c, hc, rfl⟩
    obtain ⟨entry, hentry, rest, hrest, rfl⟩ := mem_candidates.1 hc
    obtain ⟨value, hvalue, hpaths, -⟩ := mem_referenceKeys.1 hentry
    exact ⟨(entry.1, value), hvalue, rest, hpaths ▸ hrest, rfl⟩
  · rintro ⟨⟨key, value⟩, hvalue, rest, hrest, rfl⟩
    have hentry : (key, value.references) ∈ action.referenceKeys :=
      mem_referenceKeys.2 ⟨value, hvalue, rfl, List.ne_nil_of_mem hrest⟩
    exact ⟨_, mem_candidates.2 ⟨_, hentry, rest, hrest, rfl⟩, rfl⟩

/-! ### The tool -/

/-- The tool of an action whose references have been named. -/
def named (action : Action) (lookup : Lookup) (names : NameMap Claim) : Spec where
  definition :=
    { name := action.identifier
      description :=
        toolDescription action.identifier (lookup.actionOf? action) (lookup.intentOf? action)
      parameters := names.map fun _ claim ↦ lookup.parameterSpec action claim.key
      responseType := .string }
  override := none
  metadata := ⟨action, names.map fun _ claim ↦ claim.path⟩

/-- What the definition of a tool says of an action is its identifier, and what the tables have on
the action and on the intent it addresses. -/
theorem definition_named_congr {a b : Action} (hid : a.identifier = b.identifier)
    (hintent : a.appIntent? = b.appIntent?) (names : NameMap Claim) :
    (a.named lookup names).definition = (b.named lookup names).definition := by
  have hactionOf : lookup.actionOf? a = lookup.actionOf? b := by
    rw [Lookup.actionOf?, Lookup.actionOf?, hid]
  have hintentOf : lookup.intentOf? a = lookup.intentOf? b := by
    rw [Lookup.intentOf?, Lookup.intentOf?, hintent]
  have hparameters : lookup.parameterSpec a = lookup.parameterSpec b := by
    funext key
    simp only [Lookup.parameterSpec, hactionOf, hintentOf]
  simp only [named, hid, hactionOf, hintentOf, hparameters]

/-- A key under which there are references is described. -/
theorem lookup_keySpecs {key : String} (hkey : key ∈ Entries.keys action.referenceKeys) :
    (action.keySpecs lookup).lookup key = some (lookup.parameterSpec action key) := by
  have hfound : action.referenceKeys.lookup key ≠ none := fun hnone ↦
    Entries.lookup_eq_none_iff.1 hnone hkey
  obtain ⟨paths, hpaths⟩ := Option.ne_none_iff_exists'.1 hfound
  rw [keySpecs, Entries.lookup_map (fun key _ ↦ lookup.parameterSpec action key), hpaths,
    Option.map_some]

/-- **No name is left out**: when all names come with keys that have references, each is described
by its key. -/
theorem describe_sources {namer : Namer}
    (hkeys : ∀ entry ∈ namer.names.entries, entry.2.key ∈ Entries.keys action.referenceKeys) :
    describe (action.keySpecs lookup) namer.sources =
      namer.names.map fun _ claim ↦ lookup.parameterSpec action claim.key := by
  have hdescribed : ∀ entry ∈ namer.names.entries,
      ((action.keySpecs lookup).lookup entry.2.key).map (fun spec ↦ (entry.1, spec)) =
        some (entry.1, lookup.parameterSpec action entry.2.key) := by
    intro entry hentry
    rw [lookup_keySpecs (hkeys entry hentry), Option.map_some]
  rw [describe, sources, List.filterMap_map]
  refine Eq.trans (congrArg NameMap.ofList ?_) (NameMap.ofList_entries _)
  exact (List.filterMap_congr hdescribed).trans (congrFun List.filterMap_eq_map _)

/-- **A generated tool is read off the names** that the references under the keys get. -/
theorem generate_eq (action : Action) (lookup : Lookup) (policy : CollisionPolicy) :
    action.generate lookup policy =
      ((Namer.new action.identifier policy).addKeys action.referenceKeys).map fun namer ↦
        action.named lookup namer.names := by
  rw [generate]
  cases hnamer : (Namer.new action.identifier policy).addKeys action.referenceKeys with
  | error failure => rfl
  | ok namer =>
    obtain ⟨-, hsettled⟩ :=
      settled_of_addKeys action.nodup_keys_referenceKeys action.nodup_referenceKeys hnamer
    have hkeys : ∀ entry ∈ namer.names.entries,
        entry.2.key ∈ Entries.keys action.referenceKeys := by
      intro entry hentry
      obtain ⟨c, hc, hplace⟩ := (hsettled.records _ _).1 (NameMap.get?_eq_some_iff.2 hentry)
      obtain ⟨keyed, hkeyed, path, -, rfl⟩ := mem_candidates.1 hc
      -- A reference that has moved keeps its key.
      rw [Candidate.key_of_place hplace]
      exact List.mem_map_of_mem hkeyed
    rw [Except.map, named, ← describe_sources hkeys]
    rfl

/-- The names record the references. -/
theorem exists_names (h : action.generate lookup policy = .ok spec) :
    ∃ names, spec = action.named lookup names ∧
      WellFormed (candidates action.referenceKeys) ∧
      Records names (Displaced (candidates action.referenceKeys))
        (candidates action.referenceKeys) := by
  rw [generate_eq] at h
  cases hnamer : (Namer.new action.identifier policy).addKeys action.referenceKeys with
  | error failure => rw [hnamer] at h; cases h
  | ok namer =>
    rw [hnamer] at h
    cases h
    obtain ⟨hwell, hsettled⟩ :=
      settled_of_addKeys action.nodup_keys_referenceKeys action.nodup_referenceKeys hnamer
    exact ⟨namer.names, rfl, hwell, hsettled.records⟩

/-- The template of a tool is the action it was generated from. -/
theorem template_generate (h : action.generate lookup policy = .ok spec) :
    spec.metadata.template = action := by
  obtain ⟨names, rfl, -⟩ := exists_names h
  rfl

/-- Each parameter has a place, and each place a parameter. -/
theorem names_parameters (h : action.generate lookup policy = .ok spec) :
    spec.definition.parameters.names = spec.metadata.paths.names := by
  obtain ⟨names, rfl, -⟩ := exists_names h
  simp only [named, NameMap.names_map]

/-- No place has two names. -/
theorem eq_of_get?_paths (h : action.generate lookup policy = .ok spec) {name name' : String}
    {path : Path} (hname : spec.metadata.paths.get? name = some path)
    (hname' : spec.metadata.paths.get? name' = some path) : name = name' := by
  obtain ⟨names, rfl, hwell, hrecords⟩ := exists_names h
  simp only [named, NameMap.get?_map, Option.map_eq_some_iff] at hname hname'
  obtain ⟨claim, hclaim, rfl⟩ := hname
  obtain ⟨claim', hclaim', hpath⟩ := hname'
  exact hrecords.name_eq_of_path_eq hwell hclaim hclaim' hpath.symm

/-- The places that have names are those of the references under the top-level keys. -/
theorem exists_get?_paths_iff (h : action.generate lookup policy = .ok spec) {path : Path} :
    (∃ name, spec.metadata.paths.get? name = some path) ↔
      path ∈ Json.referencesInEntries action.parameters.entries := by
  obtain ⟨names, rfl, -, hrecords⟩ := exists_names h
  simp only [named, NameMap.get?_map]
  exact hrecords.exists_path_iff.trans exists_candidate_iff

/-- A parameter is described by the key its place starts with. -/
theorem get?_parameters (h : action.generate lookup policy = .ok spec) {name key : String}
    {rest : Path} (hname : spec.metadata.paths.get? name = some (.key key :: rest)) :
    spec.definition.parameters.get? name = some (lookup.parameterSpec action key) := by
  obtain ⟨names, rfl, -, hrecords⟩ := exists_names h
  simp only [named, NameMap.get?_map, Option.map_eq_some_iff] at hname ⊢
  obtain ⟨claim, hclaim, hpath⟩ := hname
  obtain ⟨c, hc, hplace⟩ := (hrecords name claim).1 hclaim
  -- A reference that has moved keeps its path and its key.
  obtain ⟨tail, htail⟩ := path_eq_key_cons hc
  rw [Candidate.path_of_place hplace, htail, ← Candidate.key_of_place hplace] at hpath
  cases hpath
  exact ⟨claim, hclaim, rfl⟩

/-- **Names and places correspond one to one**, and what a name says about its parameter is computed
from the definitions of the key its place starts with, also when the reference was moved to its full
path. -/
theorem generate_paths_bijective (h : action.generate lookup policy = .ok spec) :
    spec.definition.parameters.names = spec.metadata.paths.names ∧
      (∀ name name' path, spec.metadata.paths.get? name = some path →
        spec.metadata.paths.get? name' = some path → name = name') ∧
      (∀ path, (∃ name, spec.metadata.paths.get? name = some path) ↔
        ∃ entry ∈ action.parameters.entries, ∃ rest ∈ entry.2.references,
          .key entry.1 :: rest = path) ∧
      (action.tree.json.isReference = false → ∀ path,
        (∃ name, spec.metadata.paths.get? name = some path) ↔ path ∈ action.tree.json.references) ∧
      ∀ name key rest parameter intentParameter,
        spec.metadata.paths.get? name = some (.key key :: rest) →
        (lookup.action? action.identifier).bind (·.parameter? key) = parameter →
        (action.appIntent?.bind fun (bundle, intent) ↦
          (lookup.intent? bundle intent).bind (·.parameter? key)) = intentParameter →
        spec.definition.parameters.get? name =
          some
            { required := parameterRequired parameter intentParameter
              description := parameterDescription key parameter intentParameter
              type := .string } := by
  refine ⟨names_parameters h, fun _ _ _ ↦ eq_of_get?_paths h, fun path ↦ ?_, fun hroot path ↦ ?_,
    fun name key rest parameter intentParameter hname hparameter hintent ↦ ?_⟩
  · rw [exists_get?_paths_iff h, Json.mem_referencesInEntries]
  · -- The parameters as a whole are no reference, so all references are under keys.
    have hreferences : action.tree.json.references =
        Json.referencesInEntries action.parameters.entries := by
      change (Json.object action.parameters.entries).isReference = false at hroot
      show Json.references (.object action.parameters.entries) = _
      rw [Json.references, hroot, if_neg Bool.false_ne_true]
    rw [exists_get?_paths_iff h, hreferences]
  · rw [get?_parameters h hname, Lookup.parameterSpec, Lookup.actionOf?, Lookup.intentOf?,
      Option.bind_assoc, hparameter, hintent]

/-- An action that addresses an intent. Two of its keys contend for the name `x`, two have one
reference each. -/
def addressing : Action :=
  ⟨"t", ⟨[("AppIntentDescriptor", .object
        [("BundleIdentifier", .string "b"), ("AppIntentIdentifier", .string "i")]),
      ("A", .object [("x", .object [("n", .reference "v")]),
        ("z", .object [("n", .reference "v")])]),
      ("B", .object [("x", .object [("m", .reference "v")]),
        ("w", .object [("m", .reference "v")])]),
      ("C", .reference "v"), ("D", .reference "v")], by decide⟩⟩

/-- Definitions for the keys of `addressing`. The key `A` is defined by both tables, and twice by
the action; the key `C` is not defined. -/
def addressed : Lookup where
  actions := ⟨[("t", ⟨none, none, some
    [⟨"A", some "Text", some "Left", none, none⟩, ⟨"A", none, none, some "Later", none⟩,
      ⟨"B", none, some "Right", some "Other", some .null⟩], none⟩)], by decide⟩
  bundles := ⟨[("b", ⟨[("i", ⟨"i", ⟨"Go"⟩, some [⟨"A", ⟨"Here"⟩, true⟩, ⟨"D", ⟨"Deep"⟩, false⟩],
    none⟩)], by decide⟩)], by decide⟩

/-- Two references move to their full paths, and each of the six names is described by its key: by
the intent, by the default of the action's definition, or by nothing but itself. -/
theorem exists_generate_addressing :
    ∃ spec, addressing.generate addressed .fallback = .ok spec ∧
      spec.metadata.paths.names = ["A.x.n", "B.x.m", "C", "D", "w", "z"] ∧
      spec.definition.parameters.names = spec.metadata.paths.names ∧
      spec.definition.parameters.get? "A.x.n" = some ⟨false, "(Text) Left", .string⟩ ∧
      spec.definition.parameters.get? "B.x.m" = some ⟨false, "Other", .string⟩ ∧
      spec.definition.parameters.get? "C" = some ⟨true, "C", .string⟩ ∧
      spec.definition.parameters.get? "D" = some ⟨true, "Deep", .string⟩ := by
  have h : addressing.generate addressed .fallback = .ok _ := rfl
  obtain ⟨hnames, -, -, -, hdescribed⟩ := generate_paths_bijective h
  exact ⟨_, h, rfl, hnames,
    hdescribed "A.x.n" "A" [.key "x", .key "n"] _ _ rfl rfl rfl,
    hdescribed "B.x.m" "B" [.key "x", .key "m"] _ _ rfl rfl rfl,
    hdescribed "C" "C" [] _ _ rfl rfl rfl, hdescribed "D" "D" [] _ _ rfl rfl rfl⟩

/-! ### Equal actions -/

variable {a b : Action}

theorem identifier_of_equal (h : a.equal b = true) : a.identifier = b.identifier :=
  eq_of_beq (Bool.and_eq_true_iff.1 h).1

theorem parameters_of_equal (h : a.equal b = true) :
    a.parameters.json.equal b.parameters.json = true :=
  (Bool.and_eq_true_iff.1 h).2

/-- Equal actions address the same intent: what is looked at are texts. -/
theorem appIntent?_of_equal (h : a.equal b = true) : a.appIntent? = b.appIntent? := by
  have hdescriptor : Json.EqualFound (a.parameters.json.get? "AppIntentDescriptor")
      (b.parameters.json.get? "AppIntentDescriptor") :=
    Json.get?_of_equal a.parameters.distinct (parameters_of_equal h) _
  rw [appIntent?, appIntent?]
  generalize hget : a.parameters.json.get? "AppIntentDescriptor" = found at hdescriptor ⊢
  generalize b.parameters.json.get? "AppIntentDescriptor" = found' at hdescriptor ⊢
  cases hdescriptor with
  | none => rfl
  | some hequal =>
    have hstring := fun key ↦
      (Json.get?_of_equal (Json.Distinct.get? a.parameters.distinct hget) hequal key).bind_string?
    simp only [Option.bind_eq_bind, Option.bind_some, hstring]

/-- The references of a value are listed under its key, in some order. -/
theorem exists_mem_referenceKeys {entry : String × List Path} (hne : entry.2 ≠ []) {value : Json}
    (hvalue : (entry.1, value) ∈ action.parameters.entries)
    (hperm : entry.2.Perm value.references) :
    ∃ entry' ∈ action.referenceKeys, entry'.1 = entry.1 ∧ entry.2.Perm entry'.2 := by
  have hne' : value.references ≠ [] := fun hnil ↦ hne (hnil ▸ hperm).eq_nil
  exact ⟨(entry.1, value.references), mem_referenceKeys.2 ⟨value, hvalue, rfl, hne'⟩, rfl, hperm⟩

/-- Equal actions have the same references to be named. -/
theorem mem_candidates_of_equal (h : a.equal b = true) {c : Candidate} :
    c ∈ candidates a.referenceKeys ↔ c ∈ candidates b.referenceKeys := by
  have hequal := parameters_of_equal h
  have ha := Json.distinct_object.1 a.parameters.distinct
  have hb := Json.distinct_object.1 b.parameters.distinct
  constructor
  · refine mem_candidates_of_perm fun entry hentry ↦ ?_
    obtain ⟨value, hvalue, hpaths, hne⟩ := mem_referenceKeys.1 hentry
    obtain ⟨value', hvalue', heq⟩ := Json.exists_mem_of_equal_left hequal hvalue
    have hperm := Json.references_perm_of_equal (ha.2 _ hvalue) (hb.2 _ hvalue') heq
    exact exists_mem_referenceKeys hne hvalue' (hpaths ▸ hperm)
  · refine mem_candidates_of_perm fun entry hentry ↦ ?_
    obtain ⟨value, hvalue, hpaths, hne⟩ := mem_referenceKeys.1 hentry
    obtain ⟨value', hvalue', heq⟩ := Json.exists_mem_of_equal_right ha.1 hb.1 hequal hvalue
    have hperm := Json.references_perm_of_equal (ha.2 _ hvalue') (hb.2 _ hvalue) heq
    exact exists_mem_referenceKeys hne hvalue' (hpaths ▸ hperm.symm)

/-- The tools of equal actions are read off the same names. The two runs meet the references in
different orders, but who is displaced at the end depends on the references as a set. -/
theorem exists_common_names {s t : Spec} (h : a.equal b = true)
    (hs : a.generate lookup policy = .ok s) (ht : b.generate lookup policy = .ok t) :
    ∃ names, s = a.named lookup names ∧ t = b.named lookup names := by
  obtain ⟨names, rfl, -, hrecords⟩ := exists_names hs
  obtain ⟨names', rfl, -, hrecords'⟩ := exists_names ht
  have hmem : ∀ c, c ∈ candidates a.referenceKeys ↔ c ∈ candidates b.referenceKeys := fun c ↦
    mem_candidates_of_equal h
  have hnames : names = names' :=
    hrecords.eq_of_mem_iff hrecords' hmem fun c ↦ displaced_congr hmem
  exact ⟨names, rfl, hnames ▸ rfl⟩

/-- Equal actions are generated with equal metadata. -/
theorem metadata_equal {s t : Spec} (h : a.equal b = true)
    (hs : a.generate lookup policy = .ok s) (ht : b.generate lookup policy = .ok t) :
    s.metadata.equal t.metadata = true := by
  obtain ⟨names, rfl, rfl⟩ := exists_common_names h hs ht
  simp only [named, Metadata.equal, h, beq_self_eq_true, Bool.and_self]

/-- **Equal actions get equal tools**: the same definition, and the same places in equal
templates. -/
theorem generate_eq_of_equal {s t : Spec} (h : a.equal b = true)
    (hs : a.generate lookup policy = .ok s) (ht : b.generate lookup policy = .ok t) :
    s.definition = t.definition ∧ s.metadata.equal t.metadata = true := by
  refine ⟨?_, metadata_equal h hs ht⟩
  obtain ⟨names, rfl, rfl⟩ := exists_common_names h hs ht
  exact definition_named_congr (identifier_of_equal h) (appIntent?_of_equal h) names

/-- Two keys contend for the name `x`. -/
def contending : Action :=
  ⟨"t", ⟨[("A", .object [("x", .object [("n", .reference "v")]),
        ("z", .object [("n", .reference "v")])]),
      ("B", .object [("x", .object [("m", .reference "v")]),
        ("w", .object [("m", .reference "v")])])], by decide⟩⟩

/-- The keys of `contending` in another order, at the top and below it. -/
def contendingReordered : Action :=
  ⟨"t", ⟨[("B", .object [("w", .object [("m", .reference "v")]),
        ("x", .object [("m", .reference "v")])]),
      ("A", .object [("x", .object [("n", .reference "v")]),
        ("z", .object [("n", .reference "v")])])], by decide⟩⟩

/-- Both orders of the keys give one tool. -/
theorem exists_generate_reordered :
    ∃ s t, contending.equal contendingReordered = true ∧
      contending.generate ∅ .fallback = .ok s ∧ contendingReordered.generate ∅ .fallback = .ok t ∧
      s.definition = t.definition ∧ s.metadata.equal t.metadata = true := by
  have hequal : contending.equal contendingReordered = true := by decide
  have hs : contending.generate ∅ .fallback = .ok _ := rfl
  have ht : contendingReordered.generate ∅ .fallback = .ok _ := rfl
  exact ⟨_, _, hequal, hs, ht, generate_eq_of_equal hequal hs ht⟩

end Action

end ActionTools
