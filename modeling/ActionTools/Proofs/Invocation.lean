import ActionTools.Invocation
import ActionTools.Proofs.Filling
import ActionTools.Proofs.Generation

/-!
# What a call comes to

A call is refused for the first parameter given that the tool does not have, or else for the least
one that is required and not given. Otherwise the template is filled, and that cannot fail: the
places of a generated tool are references of its template, which are mappings, and no reference lies
inside another (`Metadata.Fillable`, `Action.fillable`). Overrides change neither the places nor the
definition that says what is required, so all this holds however often a tool has been overridden
(`instantiate_contract`).
-/

namespace ActionTools

/-- The places of a tool are mappings of its template that lie apart. -/
structure Metadata.Fillable (metadata : Metadata) : Prop where
  exists_object : ∀ name path, metadata.paths.get? name = some path →
    ∃ entries, metadata.template.tree.json.atPath? path = some (.object entries)
  apart : ∀ name name' path path', metadata.paths.get? name = some path →
    metadata.paths.get? name' = some path' → name ≠ name' → path.Apart path'

/-- An action made from a mapping has this mapping as its parameters. -/
theorem Action.json_parameters_ofTree {identifier : String} {tree : Tree} {entries : Entries Json}
    (h : tree.json = .object entries) :
    (Action.ofTree identifier tree).parameters.json = tree.json := by
  obtain ⟨json, hdistinct⟩ := tree
  cases h
  rfl

namespace Spec

variable {spec : Spec} {parameters : Mapping}

/-! ### Overrides -/

theorem metadata_foldl_mergeOverride (spec : Spec) (overrides : List Override) :
    (overrides.foldl mergeOverride spec).metadata = spec.metadata := by
  induction overrides generalizing spec with
  | nil => rfl
  | cons extra rest ih => exact ih (spec.mergeOverride extra)

/-- Overrides do not change the generated definition, they are held beside it. -/
theorem definition_foldl_mergeOverride (spec : Spec) (overrides : List Override) :
    (overrides.foldl mergeOverride spec).definition = spec.definition := by
  induction overrides generalizing spec with
  | nil => rfl
  | cons extra rest ih => exact ih (spec.mergeOverride extra)

/-! ### The two checks -/

/-- No parameter is unknown when all that are given have places. -/
theorem unknownParameter?_eq_none_iff :
    spec.unknownParameter? parameters = none ↔
      ∀ name ∈ parameters.keys, name ∈ spec.metadata.paths.names := by
  simp [unknownParameter?, NameMap.contains_iff]

/-- An unknown parameter is refused before anything else is looked at. -/
theorem instantiate_of_unknown {name : String} (h : spec.unknownParameter? parameters = some name) :
    spec.instantiate parameters = .error (.unknownParameter spec.effectiveName name) := by
  rw [instantiate, h]

/-- A missing parameter is refused when none is unknown. -/
theorem instantiate_of_missing {name : String} (h : spec.unknownParameter? parameters = none)
    (h' : spec.missingParameter? parameters = some name) :
    spec.instantiate parameters = .error (.missingParameter spec.effectiveName name) := by
  rw [instantiate, h, h']

/-! ### Filling the template -/

/-- A value is put at the place of the parameter it is given for. -/
theorem mem_substitutions {place : Path × Tree} :
    place ∈ spec.substitutions parameters ↔
      ∃ name, spec.metadata.paths.get? name = some place.1 ∧
        parameters.get? name = some place.2 := by
  obtain ⟨path, value⟩ := place
  simp only [substitutions, List.mem_filterMap, Option.map_eq_some_iff, Prod.mk.injEq,
    NameMap.get?_eq_some_iff]
  constructor
  · rintro ⟨⟨name, _⟩, hentry, _, hvalue, rfl, rfl⟩
    exact ⟨name, hentry, hvalue⟩
  · rintro ⟨name, hentry, hvalue⟩
    exact ⟨(name, path), hentry, value, hvalue, rfl, rfl⟩

/-- The values are put at places that lie apart, so the order in which this is done does not
matter. -/
theorem pairwise_substitutions (h : spec.metadata.Fillable) (parameters : Mapping) :
    (spec.substitutions parameters).Pairwise fun first second ↦ Path.Apart first.1 second.1 := by
  -- The map is sorted, so two places in the list have different names.
  refine List.pairwise_filterMap.2 (spec.metadata.paths.sorted.imp_of_mem ?_)
  rintro ⟨name, path⟩ ⟨name', path'⟩ hmem hmem' hlt place hplace place' hplace'
  obtain ⟨value, -, rfl⟩ := Option.map_eq_some_iff.1 hplace
  obtain ⟨value', -, rfl⟩ := Option.map_eq_some_iff.1 hplace'
  exact h.apart name name' path path' (NameMap.get?_eq_some_iff.2 hmem)
    (NameMap.get?_eq_some_iff.2 hmem') (String.ne_of_lt hlt)

/-- The value given for the parameter at a path. -/
def given? (spec : Spec) (parameters : Mapping) (path : Path) : Option Json :=
  ((spec.substitutions parameters).lookup path).map Tree.json

/-- At a place the value of its parameter is given, and there is only one parameter for a place. -/
theorem given?_eq_some_iff (h : spec.metadata.Fillable) {path : Path} {value : Json} :
    spec.given? parameters path = some value ↔
      ∃ name tree, spec.metadata.paths.get? name = some path ∧
        parameters.get? name = some tree ∧ tree.json = value := by
  simp only [given?, Option.map_eq_some_iff, Tree.lookup_eq_some_iff
    (pairwise_substitutions h parameters), mem_substitutions]
  constructor
  · rintro ⟨tree, ⟨name, hname, htree⟩, hvalue⟩
    exact ⟨name, tree, hname, htree, hvalue⟩
  · rintro ⟨name, tree, hname, htree, hvalue⟩
    exact ⟨tree, ⟨name, hname, htree⟩, hvalue⟩

/-- On the way to a place nothing is given. -/
theorem given?_eq_none (h : spec.metadata.Fillable) {name : String} {path p q : Path}
    (hname : spec.metadata.paths.get? name = some path) (hpath : p ++ q = path) (hne : q ≠ []) :
    spec.given? parameters p = none := by
  by_contra hvalue
  obtain ⟨value, hvalue⟩ := Option.ne_none_iff_exists'.1 hvalue
  -- The value would belong to another parameter, whose place leads to this one.
  obtain ⟨other, _, hother, -, -⟩ := (given?_eq_some_iff h).1 hvalue
  by_cases heq : other = name
  · cases heq
    cases hname.symm.trans hother
    exact hne (List.append_right_eq_self.1 hpath)
  · exact (h.apart other name p path hother hname heq).1 ⟨q, hpath⟩

/-- **A call that passes both checks fills the template.** -/
theorem exists_instantiate (h : spec.metadata.Fillable)
    (hknown : spec.unknownParameter? parameters = none)
    (hgiven : spec.missingParameter? parameters = none) :
    ∃ filled, spec.instantiate parameters = .ok filled ∧
      filled.identifier = spec.metadata.template.identifier ∧
      filled.parameters.json =
        spec.metadata.template.parameters.json.fillWith (spec.given? parameters) := by
  have hat : ∀ place ∈ spec.substitutions parameters,
      ∃ entries, spec.metadata.template.tree.json.atPath? place.1 = some (.object entries) := by
    intro place hplace
    obtain ⟨name, hname, -⟩ := mem_substitutions.1 hplace
    exact h.exists_object name place.1 hname
  obtain ⟨filled, hfilled, hjson⟩ :=
    Tree.substituteAll_eq_fillWith hat (pairwise_substitutions h parameters)
  refine ⟨Action.ofTree spec.metadata.template.identifier filled, ?_, rfl, ?_⟩
  · rw [instantiate, hknown, hgiven, hfilled]
  · obtain ⟨entries, hentries⟩ := Json.exists_fillWith_object
      spec.metadata.template.parameters.entries (spec.given? parameters)
    rw [Action.json_parameters_ofTree (hjson.trans hentries), hjson]
    rfl

/-! ### The contract -/

/-- A required parameter of the tool is not given. -/
structure Lacks (spec : Spec) (parameters : Mapping) (name : String) : Prop where
  mem_names : name ∈ spec.metadata.paths.names
  required : ∃ parameter, spec.definition.parameters.get? name = some parameter ∧
    parameter.required = true
  not_given : name ∉ parameters.keys

/-- What a call of a tool with some parameters comes to. -/
structure Contract (spec : Spec) (parameters : Mapping) : Prop where
  /-- The first parameter given that has no place is refused. -/
  unknown : ∀ before name after, parameters.keys = before ++ name :: after →
    (∀ known ∈ before, known ∈ spec.metadata.paths.names) →
    name ∉ spec.metadata.paths.names →
    spec.instantiate parameters = .error (.unknownParameter spec.effectiveName name)
  /-- When all have places, the least required one that is not given is missed. -/
  missing : (∀ name ∈ parameters.keys, name ∈ spec.metadata.paths.names) →
    ∀ name, spec.Lacks parameters name → (∀ other, spec.Lacks parameters other → name ≤ other) →
    spec.instantiate parameters = .error (.missingParameter spec.effectiveName name)
  /-- When none is missed, every place with a value gets it, and everything else stays. -/
  filled : (∀ name ∈ parameters.keys, name ∈ spec.metadata.paths.names) →
    (∀ name, ¬ spec.Lacks parameters name) →
    ∃ action value?, spec.instantiate parameters = .ok action ∧
      action.identifier = spec.metadata.template.identifier ∧
      (∀ path value, value? path = some value ↔
        ∃ name tree, spec.metadata.paths.get? name = some path ∧
          parameters.get? name = some tree ∧ tree.json = value) ∧
      action.parameters.json = spec.metadata.template.parameters.json.fillWith value? ∧
      ∀ name path tree, spec.metadata.paths.get? name = some path →
        parameters.get? name = some tree →
        ∃ entries, spec.metadata.template.parameters.json.atPath? path = some (.object entries) ∧
          action.parameters.json.atPath? path =
            some (.object (Entries.set variableNameField tree.json entries))
  /-- The template is never at fault. -/
  integrity : ∀ path reason, spec.instantiate parameters ≠ .error (.templateIntegrity path reason)

/-- The parameter refused is the first of those without a place. -/
theorem unknownParameter?_eq_some {before after : List String} {name : String}
    (hkeys : parameters.keys = before ++ name :: after)
    (hbefore : ∀ known ∈ before, known ∈ spec.metadata.paths.names)
    (hname : name ∉ spec.metadata.paths.names) : spec.unknownParameter? parameters = some name := by
  refine List.find?_eq_some_iff_append.2 ⟨?_, before, after, hkeys, fun known hknown ↦ ?_⟩
  · rw [Bool.not_eq_true', ← Bool.not_eq_true, NameMap.contains_iff]
    exact hname
  · rw [Bool.not_not, NameMap.contains_iff]
    exact hbefore known hknown

/-- What the check looks for is what the definition says to be required. -/
theorem lacks_iff (hnames : spec.definition.parameters.names = spec.metadata.paths.names)
    {name : String} (hname : name ∈ spec.metadata.paths.names) :
    spec.Lacks parameters name ↔
      (spec.isRequired name && (parameters.get? name).isNone) = true := by
  rw [← hnames] at hname
  -- The definition lists the name, so the default for unlisted ones is not asked.
  obtain ⟨parameter, hparameter⟩ := NameMap.mem_names_iff.1 hname
  rw [Bool.and_eq_true, Option.isNone_iff_eq_none, Mapping.get?_eq_none_iff, isRequired, hparameter]
  constructor
  · rintro ⟨-, ⟨parameter', hparameter', hrequired⟩, hnot⟩
    cases hparameter.symm.trans hparameter'
    exact ⟨hrequired, hnot⟩
  · rintro ⟨hrequired, hnot⟩
    exact ⟨hnames ▸ hname, ⟨parameter, hparameter, hrequired⟩, hnot⟩

/-- A call of a tool whose definition lists the parameters with places, and whose places can be
filled, keeps the contract. -/
theorem Contract.of_fillable (hnames : spec.definition.parameters.names = spec.metadata.paths.names)
    (h : spec.metadata.Fillable) (parameters : Mapping) : spec.Contract parameters where
  unknown _ _ _ hkeys hbefore hname :=
    instantiate_of_unknown (unknownParameter?_eq_some hkeys hbefore hname)
  missing hknown name hlacks hleast := by
    refine instantiate_of_missing (unknownParameter?_eq_none_iff.2 hknown) ?_
    have hfound := (lacks_iff hnames hlacks.mem_names).1 hlacks
    exact NameMap.find?_names_eq_some hlacks.mem_names hfound fun other hother hother' ↦
      hleast other ((lacks_iff hnames hother).2 hother')
  filled hknown hgiven := by
    -- What the check would find is what the tool lacks, and it lacks nothing.
    have hmissing : spec.missingParameter? parameters = none :=
      List.find?_eq_none.2 fun name hname hlacks ↦ hgiven name ((lacks_iff hnames hname).2 hlacks)
    obtain ⟨action, haction, hidentifier, hjson⟩ :=
      exists_instantiate h (unknownParameter?_eq_none_iff.2 hknown) hmissing
    refine ⟨action, spec.given? parameters, haction, hidentifier,
      fun path value ↦ given?_eq_some_iff h, hjson, fun name path tree hname htree ↦ ?_⟩
    obtain ⟨entries, hentries⟩ := h.exists_object name path hname
    refine ⟨entries, hentries, ?_⟩
    rw [hjson]
    have hvalue := (given?_eq_some_iff h).2 ⟨name, tree, hname, htree, rfl⟩
    exact Json.atPath?_fillWith_of_value hentries hvalue fun p q hpath hne ↦
      given?_eq_none h hname hpath hne
  integrity path reason herror := by
    cases hunknown : spec.unknownParameter? parameters with
    | some name => rw [instantiate_of_unknown hunknown] at herror; cases herror
    | none =>
      cases hmissing : spec.missingParameter? parameters with
      | some name => rw [instantiate_of_missing hunknown hmissing] at herror; cases herror
      | none =>
        obtain ⟨action, haction, -⟩ := exists_instantiate h hunknown hmissing
        rw [haction] at herror
        cases herror

end Spec

namespace Action

variable {lookup : Lookup} {policy : CollisionPolicy} {action : Action} {spec : Spec}

/-- The places of a generated tool can be filled. -/
theorem fillable (h : action.generate lookup policy = .ok spec) : spec.metadata.Fillable := by
  refine ⟨fun name path hname ↦ ?_, fun name name' path path' hname hname' hne ↦ ?_⟩
  · obtain ⟨leaf, hleaf, hreference⟩ := Json.hasReferenceAt_of_mem_referencesInEntries
      action.parameters.distinct ((exists_get?_paths_iff h).1 ⟨name, hname⟩)
    obtain ⟨entries, rfl⟩ := Json.exists_object_of_isReference hreference
    rw [template_generate h]
    exact ⟨entries, hleaf⟩
  · have hmem := (exists_get?_paths_iff h).1 ⟨name, hname⟩
    have hmem' := (exists_get?_paths_iff h).1 ⟨name', hname'⟩
    refine Json.apart_of_mem_referencesInEntries action.parameters.distinct hmem hmem' ?_
    exact fun heq ↦ hne (eq_of_get?_paths h hname (heq ▸ hname'))

/-- **A generated tool keeps the contract of calls**, whatever overrides are merged into it. -/
theorem instantiate_contract (h : action.generate lookup policy = .ok spec)
    (overrides : List Override) (parameters : Mapping) :
    (overrides.foldl Spec.mergeOverride spec).Contract parameters := by
  refine Spec.Contract.of_fillable ?_ ?_ parameters
  · rw [Spec.definition_foldl_mergeOverride, Spec.metadata_foldl_mergeOverride]
    exact names_parameters h
  · rw [Spec.metadata_foldl_mergeOverride]
    exact fillable h

/-- A call that gives every parameter of `contending`, one of them no text. -/
def complete : Mapping :=
  ⟨[("w", .string "q"), ("A.x.n", .string "p"), ("z", .null), ("B.x.m", .string "r")], by decide⟩

/-- A renamed tool refuses what it does not know before it misses anything. Given all it asks for,
it puts a value also where a reference lies that was moved to its full path. -/
theorem exists_instantiate_contending :
    ∃ spec filled, contending.generate ∅ .fallback = .ok spec ∧
      (spec.mergeOverride ⟨some "u", none, none, none⟩).instantiate
          ⟨[("w", .null), ("y", .null)], by decide⟩ = .error (.unknownParameter "u" "y") ∧
      (spec.mergeOverride ⟨some "u", none, none, none⟩).instantiate
          ⟨[("w", .null)], by decide⟩ = .error (.missingParameter "u" "A.x.n") ∧
      (spec.mergeOverride ⟨some "u", none, none, none⟩).instantiate complete = .ok filled ∧
      filled.parameters.json.atPath? [.key "A", .key "x", .key "n"] = some (.reference "p") := by
  obtain ⟨spec, h, hnames, hplace, htemplate, parameter, hparameter, hrequired⟩ :
      ∃ spec, contending.generate ∅ .fallback = .ok spec ∧
        spec.metadata.paths.names = ["A.x.n", "B.x.m", "w", "z"] ∧
        spec.metadata.paths.get? "A.x.n" = some [.key "A", .key "x", .key "n"] ∧
        spec.metadata.template = contending ∧
        ∃ parameter, spec.definition.parameters.get? "A.x.n" = some parameter ∧
          parameter.required = true := ⟨_, rfl, rfl, rfl, rfl, _, rfl, rfl⟩
  have hcontract := instantiate_contract h [⟨some "u", none, none, none⟩]
  have hknown : ∀ known ∈ ["w"], known ∈ spec.metadata.paths.names := by rw [hnames]; decide
  have hunknown : "y" ∉ spec.metadata.paths.names := by rw [hnames]; decide
  have hmem : "A.x.n" ∈ spec.metadata.paths.names := by rw [hnames]; decide
  have hleast : ∀ other ∈ spec.metadata.paths.names, "A.x.n" ≤ other := by rw [hnames]; decide
  have hall : ∀ name ∈ complete.keys, name ∈ spec.metadata.paths.names := by rw [hnames]; decide
  have hgiven : ∀ name ∈ spec.metadata.paths.names, name ∈ complete.keys := by rw [hnames]; decide
  obtain ⟨filled, _, hfilled, -, -, -, hvalues⟩ := (hcontract complete).filled hall
    fun name hlacks ↦ hlacks.not_given (hgiven name hlacks.mem_names)
  obtain ⟨entries, hentries, hvalue⟩ := hvalues "A.x.n" _ (.string "p") hplace rfl
  have hlacks : Spec.Lacks (spec.mergeOverride ⟨some "u", none, none, none⟩)
      ⟨[("w", .null)], by decide⟩ "A.x.n" :=
    ⟨hmem, ⟨parameter, hparameter, hrequired⟩, by decide⟩
  refine ⟨spec, filled, h, (hcontract _).unknown ["w"] "y" [] rfl hknown hunknown,
    (hcontract ⟨[("w", .null)], by decide⟩).missing hknown "A.x.n" hlacks fun other hother ↦
      hleast other hother.mem_names, hfilled, ?_⟩
  have hreference : contending.parameters.json.atPath? [.key "A", .key "x", .key "n"] =
      some (.reference "v") := rfl
  change spec.metadata.template.parameters.json.atPath? _ = _ at hentries
  rw [htemplate, hreference] at hentries
  cases hentries
  exact hvalue

end Action

end ActionTools
