import ActionTools.Proofs.Dispatch.Agreement
import ActionTools.Proofs.Instance
import ActionTools.Proofs.Repository.Generated
import ActionTools.Proofs.Repository.History

/-!
# Variables reach the templates

In the branch of a generated tool every reference of the template is to name the variable of its
parameter. Filling does that at all places and leaves the references where they are
(`Spec.exists_instantiate_variableBinding`), for a variable is named by a text. After that the
action gets its identifier, as a text under the top-level key `UUID`. This is one more write, and it
destroys what the template has under that key, references included: they become parameters of the
tool, but no variable reaches them. Every other reference is kept (`Json.references_set`). So
`Block.Wired` speaks of the places outside the key, and it holds of every branch of what a
repository compiles (`workflow_wired`).
-/

namespace ActionTools

/-- The place is not under the top-level key of the identifier. -/
def Path.outsideUuid (path : Path) : Bool := path.head? != some (.key "UUID")

namespace Json

/-- At a path there is a reference to the variable with the given name. -/
def RefersAt (json : Json) (path : Path) (name : String) : Prop :=
  ∃ leaf, json.atPath? path = some leaf ∧ leaf.isReference = true ∧
    leaf.get? variableNameField = some (.string name)

/-! ### Setting a text -/

theorem head?_of_mem_referencesInEntries {entries : Entries Json} {path : Path}
    (h : path ∈ referencesInEntries entries) :
    ∃ key ∈ Entries.keys entries, path.head? = some (.key key) := by
  obtain ⟨entry, hentry, rest, -, rfl⟩ := mem_referencesInEntries.1 h
  exact ⟨entry.1, List.mem_map_of_mem hentry, rfl⟩

/-- A text under a key has no references. So those under the key go, and all others are found as
before. -/
theorem referencesInEntries_set {entries : Entries Json} (hkeys : (Entries.keys entries).Nodup)
    (key text : String) :
    referencesInEntries (Entries.set key (.string text) entries) =
      (referencesInEntries entries).filter fun path ↦ path.head? != some (.key key) := by
  induction entries with
  | nil => rfl
  | cons entry rest ih =>
    obtain ⟨k, value⟩ := entry
    obtain ⟨hnew, hrest⟩ := List.nodup_cons.1 hkeys
    rw [Entries.set, referencesInEntries, List.filter_append]
    by_cases hk : k = key
    · subst hk
      -- What was under the key goes, and nothing else is under it.
      have hgone : (value.references.map (Segment.key k :: ·)).filter
          (fun path ↦ path.head? != some (.key k)) = [] := by
        refine List.filter_eq_nil_iff.2 fun path hpath ↦ ?_
        obtain ⟨_, -, rfl⟩ := List.mem_map.1 hpath
        simp
      have hkept : (referencesInEntries rest).filter (fun path ↦ path.head? != some (.key k)) =
          referencesInEntries rest := by
        refine List.filter_eq_self.2 fun path hpath ↦ ?_
        obtain ⟨other, hother, hhead⟩ := head?_of_mem_referencesInEntries hpath
        rw [hhead, bne_iff_ne]
        rintro ⟨⟩
        exact hnew hother
      rw [if_pos rfl, hgone, hkept]
      rfl
    · have hkept : (value.references.map (Segment.key k :: ·)).filter
          (fun path ↦ path.head? != some (.key key)) =
            value.references.map (Segment.key k :: ·) := by
        refine List.filter_eq_self.2 fun path hpath ↦ ?_
        obtain ⟨_, -, rfl⟩ := List.mem_map.1 hpath
        simpa using hk
      rw [if_neg hk, referencesInEntries, ih hrest, hkept]

/-- **A text under a top-level key destroys the references under that key and no others**, unless
the key is one by which references are told. -/
theorem references_set {entries : Entries Json} (hdistinct : (object entries).Distinct)
    {key : String} (htype : "Type" ≠ key) (hname : variableNameField ≠ key) (text : String) :
    (object (Entries.set key (.string text) entries)).references =
      (object entries).references.filter fun path ↦ path.head? != some (.key key) := by
  have hroot : (object (Entries.set key (.string text) entries)).isReference =
      (object entries).isReference := by
    simp only [isReference, get?, Entries.lookup_set_of_ne htype, Entries.lookup_set_of_ne hname]
  rw [references, references, hroot, referencesInEntries_set (distinct_object.1 hdistinct).1]
  split <;> rfl

theorem atPath?_set {entries : Entries Json} {key other : String} (hne : other ≠ key)
    (value : Json) (rest : Path) :
    (object (Entries.set key value entries)).atPath? (.key other :: rest) =
      (object entries).atPath? (.key other :: rest) := by
  rw [atPath?, atPath?, member?, member?, Entries.lookup_set_of_ne hne]

end Json

/-! ### The instance -/

namespace Spec

variable {spec : Spec}

/-- **Called with its parameters bound to their variables, a tool refers to each variable at the
place of its parameter**, and has no other references than its template. -/
theorem exists_instantiate_variableBinding (hfillable : spec.metadata.Fillable)
    (hreferencing : spec.metadata.Referencing) :
    ∃ action, spec.instantiate spec.variableBinding = .ok action ∧
      action.parameters.json.references = spec.metadata.template.parameters.json.references ∧
      ∀ parameter path, spec.metadata.paths.get? parameter = some path →
        action.parameters.json.RefersAt path
          (Dispatch.variableName spec.effectiveName parameter) := by
  have hbinds := spec.bindsVariables_variableBinding
  obtain ⟨action, haction, -, hjson⟩ :=
    exists_instantiate hfillable hbinds.unknownParameter? hbinds.missingParameter?
  refine ⟨action, haction, ?_, fun parameter path hpath ↦ ?_⟩
  · rw [hjson]
    refine Json.references_fillWith spec.metadata.template.parameters.distinct
      (renamesReferences_given? hfillable hreferencing fun entry hentry ↦ ?_)
    obtain ⟨_, -, rfl⟩ := List.mem_map.1 hentry
    exact ⟨_, rfl⟩
  · obtain ⟨_, _, leaf, -, hleaf, hreference⟩ := hreferencing parameter path hpath
    obtain ⟨entries, rfl⟩ := Json.exists_object_of_isReference hreference
    have hvalue : spec.given? spec.variableBinding path =
        some (.string (Dispatch.variableName spec.effectiveName parameter)) := by
      refine (given?_eq_some_iff hfillable).2 ⟨parameter, .string _, hpath, ?_, rfl⟩
      rw [hbinds parameter, hpath, Option.map_some]
    refine ⟨_, ?_, Json.isReference_set hreference (.string _), Entries.lookup_set_self _ _ _⟩
    rw [hjson]
    exact Json.atPath?_fillWith_of_value hleaf hvalue fun p q hsplit hne ↦
      given?_eq_none hfillable hpath hsplit hne

end Spec

namespace Dispatch

variable {inputId toolId : String}

/-! ### The variables of a branch -/

theorem variableName_injective (tool : String) : Function.Injective (variableName tool) :=
  fun _ _ h ↦ (String.append_right_inj (tool ++ ":")).1 h

/-- The variable that a step of the scaffolding sets. A filled template is not counted, though it
can be an action that sets a variable itself. -/
def Step.variable? : Step → Option String
  | made (.setVariable _ name) => some name
  | _ => none

/-- Variables of one tool that are set for different parameters have different names. -/
theorem Block.variable?_ne {entries : List (String × String)} {tool parameter : String}
    (hother : parameter ∉ entries.map Prod.fst) {step : Step}
    (h : step ∈ entries.flatMap (copy inputId tool)) :
    step.variable? ≠ some (variableName tool parameter) := by
  intro hvariable
  obtain ⟨⟨other, id⟩, hentry, hmem⟩ := List.mem_flatMap.1 h
  simp only [copy, List.mem_cons, List.not_mem_nil, or_false] at hmem
  rcases hmem with rfl | rfl
  · cases hvariable
  · cases variableName_injective tool (Option.some.inj hvariable)
    exact hother (List.mem_map_of_mem hentry)

/-- A parameter is copied into its variable before the template is run, and no other step of the
scaffolding sets that variable in the branch. What the template itself sets is left open. -/
def Block.Assigns (inputId toolId : String) (block : Block) (parameter : String) : Prop :=
  ∃ id before between after, block.steps inputId toolId =
      before ++ copy inputId block.spec.effectiveName (parameter, id) ++ between ++
        .filled block.filled :: after ∧
    ∀ step ∈ before ++ between ++ after,
      step.variable? ≠ some (variableName block.spec.effectiveName parameter)

/-- A parameter occurs once in the map of places, so it is copied once, and the copies of the others
do not set its variable. -/
theorem Block.Complete.assigns {block : Block} (h : block.Complete) {parameter : String}
    (hparameter : parameter ∈ block.spec.metadata.paths.names) :
    block.Assigns inputId toolId parameter := by
  have hnames : (block.spec.metadata.paths.names.zip block.copyIds).map Prod.fst =
      block.spec.metadata.paths.names := List.map_fst_zip h.length_copyIds.ge
  have hnodup : block.spec.metadata.paths.names.Nodup :=
    block.spec.metadata.paths.nodup_keys_entries
  rw [← hnames] at hparameter hnodup
  obtain ⟨⟨parameter, id⟩, hentry, rfl⟩ := List.mem_map.1 hparameter
  -- The copies before and behind this one are those of other parameters.
  obtain ⟨before, after, hsplit⟩ := List.append_of_mem hentry
  rw [hsplit, List.map_append, List.map_cons] at hnodup
  obtain ⟨hbefore, hafter⟩ := not_or.1 (mt List.mem_append.2 (List.nodup_middle.1 hnodup).notMem)
  refine ⟨id, .made (.ifOutputEquals toolId block.spec.effectiveName block.groupingId) ::
      before.flatMap (copy inputId block.spec.effectiveName),
    after.flatMap (copy inputId block.spec.effectiveName),
    [.made (.base64Encode block.filledId block.encodedId),
      .made (.outputAndExit block.encodedId), .made (.endIf block.endId block.groupingId)], ?_, ?_⟩
  · simp only [steps, copies, hsplit, List.flatMap_append, List.flatMap_cons, List.cons_append,
      List.append_assoc]
  · intro step hstep
    simp only [List.mem_append, List.mem_cons, List.not_mem_nil, or_false] at hstep
    rcases hstep with ((rfl | hstep) | hstep) | rfl | rfl | rfl
    · exact (Option.some_ne_none _).symm
    · exact variable?_ne hbefore hstep
    · exact variable?_ne hafter hstep
    all_goals exact (Option.some_ne_none _).symm

/-- The parameters of a tool reach its template, except where the identifier is put. -/
structure Block.Wired (inputId toolId : String) (block : Block) : Prop where
  /-- At the place of a parameter there is a reference to its variable. -/
  refersAt : ∀ parameter path, block.spec.metadata.paths.get? parameter = some path →
    path.outsideUuid = true →
      block.filled.parameters.json.RefersAt path (variableName block.spec.effectiveName parameter)
  /-- The variable has been set to the parameter, and no other step of the scaffolding in this
  branch sets it. -/
  assigns : ∀ parameter ∈ block.spec.metadata.paths.names, block.Assigns inputId toolId parameter
  /-- The references are those of the template, but for the ones under the identifier. -/
  references_eq : block.filled.parameters.json.references =
    block.spec.metadata.template.parameters.json.references.filter Path.outsideUuid

/-- **A complete branch is wired** when the places of its tool are references. -/
theorem Block.Complete.wired {block : Block} (h : block.Complete)
    (hfillable : block.spec.metadata.Fillable) (hreferencing : block.spec.metadata.Referencing) :
    block.Wired inputId toolId := by
  obtain ⟨action, haction, hreferences, hrefers⟩ :=
    Spec.exists_instantiate_variableBinding hfillable hreferencing
  have hfilled : block.filled = action.withUuid block.filledId := by
    obtain ⟨called, hcalled, hfilled⟩ :=
      h.exists_instantiate block.spec.bindsVariables_variableBinding
    cases haction.symm.trans hcalled
    exact hfilled
  refine ⟨fun parameter path hpath houtside ↦ ?_, fun parameter ↦ h.assigns, ?_⟩
  · obtain ⟨key, rest, -, rfl, -⟩ := hreferencing parameter path hpath
    have hne : key ≠ "UUID" := by
      rintro rfl
      cases houtside
    obtain ⟨leaf, hleaf, hreference⟩ := hrefers parameter _ hpath
    refine ⟨leaf, ?_, hreference⟩
    rw [hfilled, ← hleaf]
    exact Json.atPath?_set hne _ rest
  · rw [hfilled, ← hreferences]
    exact Json.references_set action.parameters.distinct (by decide) (by decide) block.filledId

/-! ### What a repository compiles -/

section Runs

variable {κ : Type} [BEq κ] [Hashable κ] (digest : String → κ) (toolType : String)
  (lookup : Lookup) (policy : CollisionPolicy) (calls : List Call)

/-- Whatever a repository has compiled keeps the places it was generated with. -/
theorem fillable_and_referencing_run {tagged : TaggedSpec}
    (h : tagged ∈ ((Repository.new digest toolType lookup policy).run calls).1.catalog.specs) :
    tagged.spec.metadata.Fillable ∧ tagged.spec.metadata.Referencing := by
  obtain ⟨_, -, _, -, spec, hgenerate, -, hmetadata⟩ :=
    Repository.exists_generate_of_mem_catalog digest toolType lookup policy calls h
  rw [hmetadata]
  exact ⟨Action.fillable hgenerate, Action.referencing hgenerate⟩

/-- **Every parameter of every tool is wired.** Whatever a repository has compiled can be dispatched
to, and in each branch the parameters reach all places of the template but those under its
identifier. -/
theorem workflow_wired (stem : String) :
    ∃ built, ∃ layout : Layout,
      workflow ((Repository.new digest toolType lookup policy).run calls).1.catalog
        (sequentialIds stem) = .ok built ∧
      layout.Describes ((Repository.new digest toolType lookup policy).run calls).1.catalog
        (sequentialIds stem) built.actions ∧
      ∀ block ∈ layout.blocks, block.Wired layout.inputId layout.toolId := by
  cases hbuilt : workflow ((Repository.new digest toolType lookup policy).run calls).1.catalog
    (sequentialIds stem) with
  | error failure =>
    -- The first call to fail would be one that cannot.
    obtain ⟨before, tagged, after, hsplit, -, hfails⟩ := (workflow_eq_error_iff
      fun tagged _ ↦ tagged.spec.bindsVariables_variableBinding).1 hbuilt
    obtain ⟨hfillable, hreferencing⟩ := fillable_and_referencing_run digest toolType lookup policy
      calls (hsplit ▸ List.mem_append_right before List.mem_cons_self)
    obtain ⟨action, haction, -⟩ :=
      Spec.exists_instantiate_variableBinding hfillable hreferencing
    rw [haction] at hfails
    cases hfails
  | ok built =>
    obtain ⟨layout, hlayout⟩ := exists_layout hbuilt
    refine ⟨built, layout, rfl, hlayout, fun block hblock ↦ ?_⟩
    obtain ⟨tagged, htagged, hspec⟩ := hlayout.exists_tagged hblock
    obtain ⟨hfillable, hreferencing⟩ :=
      fillable_and_referencing_run digest toolType lookup policy calls htagged
    rw [hspec] at hfillable hreferencing
    exact (hlayout.complete block hblock).wired hfillable hreferencing

end Runs

/-- An action with a reference in the place of its identifier. -/
def noting : Action := ⟨"note", ⟨[("UUID", .reference "v")], by decide⟩⟩

/-- The tool of the action. -/
def notingTool : TaggedSpec where
  toolType := "tools"
  spec :=
    { definition := ⟨"note", "note", ⟨[("UUID", ⟨true, "UUID", .string⟩)], by decide⟩, .string⟩
      override := none
      metadata := ⟨noting, ⟨[("UUID", [.key "UUID"])], by decide⟩⟩ }

theorem catalog_noting :
    ((Repository.new id "tools" ∅ .fallback).run [.add noting]).1.catalog = ⟨[notingTool]⟩ := by
  have h : Distinguishes id ∅ .fallback [.add noting] :=
    ⟨by decide, Function.injective_id.injOn⟩
  obtain ⟨htype, htools⟩ := tools_run h "tools"
  rw [Repository.catalog, Repository.list, htype, htools]
  rfl

/-- **A parameter under the identifier is not wired**: the branch copies it into its variable, but
the action that is run has the fresh identifier in the place of the reference. -/
theorem workflow_noting :
    ∃ built, ∃ filled : Action,
      workflow ((Repository.new id "tools" ∅ .fallback).run [.add noting]).1.catalog
        (sequentialIds "ID") = .ok built ∧
      notingTool.spec.metadata.paths.get? "UUID" = some [.key "UUID"] ∧
      built.actions[5]? =
        some (Scaffold.action (.setVariable "ID-4" (variableName "note" "UUID"))) ∧
      built.actions[6]? = some filled ∧
      filled.parameters.json.atPath? [.key "UUID"] = some (.string "ID-5") ∧
      ¬ filled.parameters.json.RefersAt [.key "UUID"] (variableName "note" "UUID") ∧
      noting.parameters.json.references = [[.key "UUID"]] ∧
      filled.parameters.json.references = [] := by
  rw [catalog_noting]
  refine ⟨_, _, rfl, rfl, rfl, rfl, rfl, ?_, rfl, rfl⟩
  rintro ⟨leaf, hleaf, hreference, -⟩
  cases hleaf
  cases hreference

end Dispatch

end ActionTools
