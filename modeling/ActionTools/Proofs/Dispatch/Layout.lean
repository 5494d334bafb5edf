import ActionTools.Dispatch
import ActionTools.Proofs.Scaffold.Recognition

/-!
# How a dispatch workflow is laid out

A dispatch workflow is a header, a branch for each tool and an exit. `Layout` says so with data:
each `Block` holds a tool, the identifiers drawn for its branch and its template filled, and
`Layout.steps` lists what there is to be done, with the shape of every scaffolding action in sight.

Whatever workflow is built for a catalog has such a layout (`exists_layout`): its actions are read
back as the steps, one for one, and the identifiers in the layout are all that are drawn, in the
order in which they are drawn (`Layout.Describes`). What is claimed of dispatch workflows can then
be shown of layouts, where no identifier is a sum of offsets any more.
-/

namespace ActionTools.Dispatch

/-- One action of a dispatch workflow. -/
inductive Step where
  /-- A scaffolding action that is made for the workflow. -/
  | made (scaffold : Scaffold)
  /-- The template of a tool, filled. It may have any shape, that of a scaffolding action too. -/
  | filled (action : Action)

namespace Step

/-- The action itself. -/
def action : Step → Action
  | made scaffold => scaffold.action
  | filled action => action

/-- An action is read back as a step. -/
def Reads : Step → Action → Prop
  | made scaffold, action => action.scaffold = scaffold
  | filled template, action => action = template

end Step

/-- The branch of one tool. -/
structure Block where
  spec : Spec
  groupingId : String
  /-- The identifiers under which the parameters are looked up, in the order of their names. -/
  copyIds : List String
  /-- The template with every reference naming the variable of its parameter. -/
  filled : Action
  filledId : String
  encodedId : String
  endId : String

namespace Block

/-- The identifiers drawn for a branch, in the order in which they are drawn. -/
def ids (block : Block) : List String :=
  block.groupingId :: (block.copyIds ++ [block.filledId, block.encodedId, block.endId])

/-- The steps that copy a parameter, looked up under an identifier, from the input into its
variable. -/
def copy (inputId tool : String) : String × String → List Step
  | (parameter, id) =>
    [.made (.getValueForKey inputId (some parametersKey) parameter id),
      .made (.setVariable id (variableName tool parameter))]

/-- The steps that copy all parameters. -/
def copies (inputId : String) (block : Block) : List Step :=
  (block.spec.metadata.paths.names.zip block.copyIds).flatMap
    (copy inputId block.spec.effectiveName)

/-- The steps of a branch. -/
def steps (inputId toolId : String) (block : Block) : List Step :=
  .made (.ifOutputEquals toolId block.spec.effectiveName block.groupingId) ::
    (block.copies inputId ++
      [.filled block.filled, .made (.base64Encode block.filledId block.encodedId),
        .made (.outputAndExit block.encodedId), .made (.endIf block.endId block.groupingId)])

/-- Each parameter has an identifier to be looked up under, and the template is filled and
identified. -/
structure Complete (block : Block) : Prop where
  length_copyIds : block.copyIds.length = block.spec.metadata.paths.names.length
  filledTemplate_eq : filledTemplate block.spec block.filledId = .ok block.filled
  uuid?_filled : block.filled.uuid? = some block.filledId

end Block

/-- A dispatch workflow. -/
structure Layout where
  inputId : String
  toolId : String
  blocks : List Block

namespace Layout

/-- The steps before the branches. -/
def header (layout : Layout) : List Step :=
  [.made (.comment s!"Dispatches {layout.blocks.length} tools"),
    .made (.dictionaryInput layout.inputId),
    .made (.getValueForKey layout.inputId none toolKey layout.toolId)]

/-- All steps. -/
def steps (layout : Layout) : List Step :=
  layout.header ++ layout.blocks.flatMap (Block.steps layout.inputId layout.toolId) ++
    [.made .exit]

/-- All identifiers, in the order in which they are drawn. -/
def ids (layout : Layout) : List String :=
  layout.inputId :: layout.toolId :: layout.blocks.flatMap Block.ids

/-- The layout is that of actions made for a catalog with identifiers from a supply. -/
structure Describes (layout : Layout) (catalog : Catalog) (supply : IdSupply)
    (actions : List Action) : Prop where
  /-- There is a branch for each tool, in their order. -/
  specs : layout.blocks.map Block.spec = catalog.specs.map TaggedSpec.spec
  /-- The actions are read back as the steps. -/
  reads : List.Forall₂ Step.Reads layout.steps actions
  complete : ∀ block ∈ layout.blocks, block.Complete
  /-- The identifiers are all that have been drawn. -/
  drawn : layout.ids = (List.range (demand catalog)).map supply

end Layout

/-! ### Reading steps back -/

variable {inputId toolId : String} {supply : IdSupply} {first : Nat} {spec : Spec}
  {actions : List Action}

theorem reads_map_action {steps : List Step}
    (h : ∀ scaffold, .made scaffold ∈ steps → scaffold.isRecognized = true) :
    List.Forall₂ Step.Reads steps (steps.map Step.action) := by
  rw [List.forall₂_map_right_iff, List.forall₂_same]
  rintro (scaffold | template) hmem
  · exact Scaffold.scaffold_action (h scaffold hmem)
  · rfl

theorem isRecognized_of_mem_copies {block : Block} {scaffold : Scaffold}
    (h : .made scaffold ∈ block.copies inputId) : scaffold.isRecognized = true := by
  obtain ⟨⟨parameter, id⟩, -, hmem⟩ := List.mem_flatMap.1 h
  simp only [Block.copy, List.mem_cons, Step.made.injEq, List.not_mem_nil, or_false] at hmem
  rcases hmem with rfl | rfl <;> rfl

theorem isRecognized_of_mem_steps {block : Block} {scaffold : Scaffold}
    (h : .made scaffold ∈ block.steps inputId toolId) : scaffold.isRecognized = true := by
  simp only [Block.steps, List.mem_cons, List.mem_append, Step.made.injEq, reduceCtorEq,
    List.not_mem_nil, false_or, or_false] at h
  rcases h with rfl | h | rfl | rfl | rfl
  · rfl
  · exact isRecognized_of_mem_copies h
  all_goals rfl

/-! ### One branch -/

/-- The branch of a tool, its identifiers being those from number `first` on. -/
def Block.drawn (supply : IdSupply) (first : Nat) (spec : Spec) (filled : Action) : Block where
  spec := spec
  groupingId := supply first
  copyIds := (List.range' (first + 1) spec.metadata.paths.names.length).map supply
  filled := filled
  filledId := supply (first + spec.metadata.paths.names.length + 1)
  encodedId := supply (first + spec.metadata.paths.names.length + 2)
  endId := supply (first + spec.metadata.paths.names.length + 3)

/-- The identifiers of a branch are drawn one after the other, as many as it demands. -/
theorem Block.ids_drawn (filled : Action) :
    (Block.drawn supply first spec filled).ids =
      (List.range' first (branchDemand spec)).map supply := by
  rw [branchDemand, ← NameMap.length_names]
  generalize hcount : spec.metadata.paths.names.length = count
  have hsplit : List.range' first (count + 4) =
      first :: (List.range' (first + 1) count ++
        [first + count + 1, first + count + 2, first + count + 3]) := by
    rw [List.range'_succ, ← List.range'_append_1, Nat.add_right_comm first 1 count]
    rfl
  rw [hsplit, Block.ids, Block.drawn, hcount, List.map_cons, List.map_append]
  rfl

/-- A filled template has the identifier it was given, whatever was under the key before. -/
theorem uuid?_of_filledTemplate {id : String} {filled : Action}
    (h : filledTemplate spec id = .ok filled) : filled.uuid? = some id := by
  rw [filledTemplate] at h
  dsimp only at h
  split at h
  · cases h
  · cases h
    exact congrArg (·.bind Json.string?) (Entries.lookup_set_self "UUID" (.string id) _)

/-- Each parameter is paired with the identifier that is drawn for it. -/
theorem zip_drawn (names : List String) :
    names.zip ((List.range' (first + 1) names.length).map supply) =
      names.zipIdx.map fun entry ↦ (entry.1, supply (first + 1 + entry.2)) := by
  rw [List.zipIdx_eq_zip_range', ← Nat.add_zero (first + 1), ← List.map_add_range', List.map_map,
    List.zip_map_right]
  rfl

/-- The copies laid out are those that are built. -/
theorem map_action_copies (filled : Action) :
    ((Block.drawn supply first spec filled).copies inputId).map Step.action =
      (spec.metadata.paths.names.zipIdx.flatMap fun (parameter, position) ↦
        copyParameter inputId spec.effectiveName (supply (first + 1 + position)) parameter).map
          Scaffold.action := by
  simp only [Block.copies, Block.drawn, zip_drawn, List.flatMap_map, List.map_flatMap]
  rfl

/-- A branch that is built is laid out as a block. -/
theorem exists_block (h : branch inputId toolId supply first spec = .ok actions) :
    ∃ block : Block, block.spec = spec ∧
      List.Forall₂ Step.Reads (block.steps inputId toolId) actions ∧ block.Complete ∧
      block.ids = (List.range' first (branchDemand spec)).map supply := by
  rw [branch] at h
  dsimp only at h
  split at h
  · cases h
  next filled hfilled =>
    cases h
    refine ⟨Block.drawn supply first spec filled, rfl, ?_, ⟨?_, hfilled,
      uuid?_of_filledTemplate hfilled⟩, Block.ids_drawn filled⟩
    · rw [← map_action_copies filled]
      have hrecognized : ∀ scaffold,
          .made scaffold ∈ (Block.drawn supply first spec filled).steps inputId toolId →
            scaffold.isRecognized = true := fun scaffold ↦ isRecognized_of_mem_steps
      have hreads := reads_map_action hrecognized
      rw [Block.steps, List.map_cons, List.map_append] at hreads
      exact hreads
    · rw [Block.drawn, List.length_map, List.length_range']

/-- Branches that are built are laid out as blocks. -/
theorem exists_blocks {specs : List TaggedSpec}
    (h : branches inputId toolId supply first specs = .ok actions) :
    ∃ blocks : List Block, blocks.map Block.spec = specs.map TaggedSpec.spec ∧
      List.Forall₂ Step.Reads (blocks.flatMap (Block.steps inputId toolId)) actions ∧
      (∀ block ∈ blocks, block.Complete) ∧
      blocks.flatMap Block.ids = (List.range' first
        (specs.foldr (fun tagged others ↦ branchDemand tagged.spec + others) 0)).map supply := by
  induction specs generalizing first actions with
  | nil =>
    cases h
    exact ⟨[], rfl, .nil, by simp, rfl⟩
  | cons tagged rest ih =>
    rw [branches] at h
    split at h
    · cases h
    next own hown =>
      split at h
      · cases h
      next others hothers =>
        cases h
        -- The first branch draws first, and the others go on with the next identifier.
        obtain ⟨block, hspec, hreads, hcomplete, hids⟩ := exists_block hown
        obtain ⟨blocks, hspecs, hreads', hcomplete', hids'⟩ := ih hothers
        refine ⟨block :: blocks, ?_, List.rel_append hreads hreads',
          List.forall_mem_cons.2 ⟨hcomplete, hcomplete'⟩, ?_⟩
        · rw [List.map_cons, List.map_cons, hspec, hspecs]
        · rw [List.flatMap_cons, hids, hids', ← List.map_append, List.range'_append_1,
            List.foldr_cons]

/-! ### The workflow -/

/-- **A dispatch workflow has a layout.** -/
theorem exists_layout {catalog : Catalog} {built : Workflow}
    (h : workflow catalog supply = .ok built) :
    ∃ layout : Layout, layout.Describes catalog supply built.actions := by
  rw [workflow] at h
  split at h
  · cases h
  next branchActions hbranches =>
    cases h
    obtain ⟨blocks, hspecs, hreads, hcomplete, hids⟩ := exists_blocks hbranches
    have hsize : blocks.length = catalog.size := by
      rw [← List.length_map Block.spec, hspecs, List.length_map, Catalog.size]
    refine ⟨⟨supply 0, supply 1, blocks⟩, hspecs, ?_, hcomplete, ?_⟩
    · refine List.rel_append (List.rel_append ?_ hreads) ?_
      · rw [Layout.header, hsize]
        exact .cons (Scaffold.scaffold_action rfl) (.cons (Scaffold.scaffold_action rfl)
          (.cons (Scaffold.scaffold_action rfl) .nil))
      · exact .cons (Scaffold.scaffold_action rfl) .nil
    · rw [Layout.ids, hids, demand, List.range_eq_range', ← List.range'_append_1]
      rfl

end ActionTools.Dispatch
