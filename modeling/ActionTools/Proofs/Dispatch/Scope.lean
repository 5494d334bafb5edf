import ActionTools.Proofs.Dispatch.Layout
import Mathlib.Data.List.Flatten

/-!
# What identifiers of a dispatch workflow refer to

A dispatch workflow draws all its identifiers from one supply, so they are pairwise distinct
whenever the supply repeats none. What is left to see is that every reference is to the right one.

* No identifier is the output of two steps, as the outputs are among what is drawn
  (`Layout.outputIds_sublist`).
* What a step refers to is the output of a step before it, of the header or of the same branch
  (`Step.Closed`). That is a matter of one branch: which other branches there are does not count.

The two together say that an output is never that of another tool (`Layout.Scoped`). The beginning
and the end of a branch find each other in the same way, by an identifier that is drawn for no other
branch. This is said of the scaffolding only. A filled template keeps the grouping identifiers it
came with, and one of them can be spelled like an identifier that is drawn.
-/

namespace ActionTools

/-- The identifiers of a supply with a stem are pairwise distinct. -/
theorem sequentialIds_injective (stem : String) : Function.Injective (sequentialIds stem) := by
  intro m n h
  have hchars : Decimal.digitChars (m + 1) = Decimal.digitChars (n + 1) :=
    String.ofList_injective (String.append_right_inj _ |>.1 h)
  have hread (number : Nat) : Nat.ofDigitChars 10 (Decimal.digitChars number) 0 = number :=
    Nat.ofDigitChars_toDigits (by decide) (by decide)
  exact Nat.succ.inj ((hread (m + 1)).symm.trans ((congrArg _ hchars).trans (hread (n + 1))))

/-- The output that a scaffolding action refers to. -/
def Scaffold.usedId? : Scaffold → Option String
  | getValueForKey outputId _ _ _ | ifOutputEquals outputId _ _ | setVariable outputId _
  | fileSave outputId _ | base64Encode outputId _ | outputAndExit outputId => some outputId
  | _ => none

namespace Dispatch

namespace Step

/-- The identifier of the output of a step. -/
def outputId? : Step → Option String
  | made scaffold => scaffold.outputId?
  | filled action => action.uuid?

/-- The output that a step refers to. -/
def usedId? : Step → Option String
  | made scaffold => scaffold.usedId?
  | filled _ => none

/-- The identifier that the beginning and the end of a branch share. A filled template is not
counted, though it can be the beginning or the end of a conditional that carries any identifier. -/
def groupingId? : Step → Option String
  | made scaffold => scaffold.groupingId?
  | filled _ => none

/-- Whatever a step refers to is the output of a step that is known or comes before it. -/
def Closed (known steps : List Step) : Prop :=
  ∀ before step after, steps = before ++ step :: after → ∀ id, step.usedId? = some id →
    ∃ source ∈ known ++ before, source.outputId? = some id

theorem Closed.nil {known : List Step} : Closed known [] :=
  fun _ _ _ h ↦ absurd h.symm (List.append_ne_nil_of_right_ne_nil _ (List.cons_ne_nil _ _))

/-- A first step may refer to what is known, and the rest also to that step. -/
theorem Closed.cons {known rest : List Step} {step : Step}
    (h : ∀ id, step.usedId? = some id → ∃ source ∈ known, source.outputId? = some id)
    (hrest : Closed (known ++ [step]) rest) : Closed known (step :: rest) := by
  rintro (_ | ⟨first, before⟩) other after hsplit id hid
  · obtain ⟨rfl, rfl⟩ := List.cons.inj hsplit
    rw [List.append_nil]
    exact h id hid
  · obtain ⟨rfl, rfl⟩ := List.cons.inj hsplit
    have hsource := hrest before other after rfl id hid
    rwa [List.append_assoc] at hsource

/-- A step that refers to nothing does not matter. -/
theorem Closed.cons_of_none {known rest : List Step} {step : Step} (h : step.usedId? = none)
    (hrest : Closed (known ++ [step]) rest) : Closed known (step :: rest) :=
  .cons (fun _ hid ↦ absurd (h.symm.trans hid) (Option.some_ne_none _).symm) hrest

/-- Steps may be followed by others that refer to them. -/
theorem Closed.append {known first second : List Step} (hfirst : Closed known first)
    (hsecond : Closed (known ++ first) second) : Closed known (first ++ second) := by
  induction first generalizing known with
  | nil => rwa [List.append_nil] at hsecond
  | cons step rest ih =>
    refine .cons (fun id hid ↦ ?_) (ih (fun before other after hsplit id hid ↦ ?_) ?_)
    · simpa using hfirst [] step rest rfl id hid
    · simpa using hfirst (step :: before) other after (by rw [hsplit]; rfl) id hid
    · rwa [List.append_assoc]

end Step

/-! ### One branch -/

namespace Block

variable {inputId toolId : String} {block : Block}

/-- The outputs of a branch: those of the look-ups, of the filled template and of its encoding. -/
theorem filterMap_outputId?_steps (h : block.Complete) :
    (block.steps inputId toolId).filterMap Step.outputId? =
      block.copyIds ++ [block.filledId, block.encodedId] := by
  have hcopies : (block.copies inputId).filterMap Step.outputId? = block.copyIds := by
    rw [copies, List.filterMap_flatMap]
    show (block.spec.metadata.paths.names.zip block.copyIds).flatMap (fun entry ↦ [entry.2]) = _
    rw [← List.map_eq_flatMap, List.map_snd_zip h.length_copyIds.le]
  rw [steps, List.filterMap_cons, List.filterMap_append, hcopies]
  simp [Step.outputId?, Scaffold.outputId?, h.uuid?_filled]

theorem groupingId?_of_mem_copies {step : Step} (h : step ∈ block.copies inputId) :
    step.groupingId? = none := by
  obtain ⟨⟨parameter, id⟩, -, hmem⟩ := List.mem_flatMap.1 h
  simp only [copy, List.mem_cons, List.not_mem_nil, or_false] at hmem
  rcases hmem with rfl | rfl <;> rfl

/-- A branch has a grouping identifier in its first and its last step only. -/
theorem filter_groupingId?_steps (block : Block) (id : String) :
    (block.steps inputId toolId).filter (fun step ↦ step.groupingId? = some id) =
      if block.groupingId = id then
        [.made (.ifOutputEquals toolId block.spec.effectiveName block.groupingId),
          .made (.endIf block.endId block.groupingId)]
      else [] := by
  have hcopies : (block.copies inputId).filter (fun step ↦ step.groupingId? = some id) = [] :=
    List.filter_eq_nil_iff.2 fun step hstep ↦ by simp [groupingId?_of_mem_copies hstep]
  rw [steps, List.filter_cons, List.filter_append, hcopies]
  by_cases hid : block.groupingId = id <;>
    simp [Step.groupingId?, Scaffold.groupingId?, hid]

/-- The copies refer to the input and to each other. -/
theorem closed_copies {known : List Step} (entries : List (String × String))
    (h : ∃ source ∈ known, source.outputId? = some inputId) (tool : String) :
    Step.Closed known (entries.flatMap (copy inputId tool)) := by
  induction entries generalizing known with
  | nil => exact .nil
  | cons entry rest ih =>
    obtain ⟨source, hsource, hid⟩ := h
    refine .cons ?_ (.cons ?_ (ih ⟨source, by simp [hsource], hid⟩))
    · rintro _ ⟨⟩
      exact ⟨source, hsource, hid⟩
    · rintro _ ⟨⟩
      exact ⟨_, List.mem_append_right _ (List.mem_singleton_self _), rfl⟩

/-- A branch refers to the input, to the name of the tool, and to itself. -/
theorem closed_steps (h : block.Complete) {known : List Step}
    (hinput : ∃ source ∈ known, source.outputId? = some inputId)
    (htool : ∃ source ∈ known, source.outputId? = some toolId) :
    Step.Closed known (block.steps inputId toolId) := by
  obtain ⟨source, hsource, hid⟩ := hinput
  refine .cons ?_ (.append (closed_copies _ ⟨source, by simp [hsource], hid⟩ _) ?_)
  · rintro _ ⟨⟩
    exact htool
  refine .cons_of_none rfl (.cons ?_ (.cons ?_ (.cons_of_none rfl .nil)))
  · rintro _ ⟨⟩
    exact ⟨.filled block.filled, by simp, h.uuid?_filled⟩
  · rintro _ ⟨⟩
    exact ⟨.made (.base64Encode block.filledId block.encodedId), by simp, rfl⟩

end Block

/-! ### The whole workflow -/

namespace Layout

variable {layout : Layout}

/-- Whatever one of the steps refers to is the output of a single step of the whole workflow, and
that step is known or comes before it. -/
def Resolves (layout : Layout) (known steps : List Step) : Prop :=
  ∀ before step after, steps = before ++ step :: after → ∀ id, step.usedId? = some id →
    ∃ source ∈ known ++ before,
      layout.steps.filter (fun other ↦ other.outputId? = some id) = [source]

/-- Every identifier of a workflow belongs where it is used. -/
structure Scoped (layout : Layout) : Prop where
  /-- No identifier is drawn twice. -/
  nodup_ids : layout.ids.Nodup
  /-- The header refers to earlier actions of the header. -/
  header : layout.Resolves [] layout.header
  /-- A branch refers to the header and to earlier actions of the same branch. -/
  branch : ∀ block ∈ layout.blocks,
    layout.Resolves layout.header (block.steps layout.inputId layout.toolId)
  /-- Among the steps of the scaffolding, a grouping identifier pairs the beginning and the end of
  one branch. Templates may carry the identifier as well. -/
  paired : ∀ block ∈ layout.blocks,
    layout.steps.filter (fun step ↦ step.groupingId? = some block.groupingId) =
      [.made (.ifOutputEquals layout.toolId block.spec.effectiveName block.groupingId),
        .made (.endIf block.endId block.groupingId)]

theorem header_subset (layout : Layout) : layout.header ⊆ layout.steps := fun _ hstep ↦
  List.mem_append_left _ (List.mem_append_left _ hstep)

theorem steps_subset (layout : Layout) {block : Block} (h : block ∈ layout.blocks) :
    block.steps layout.inputId layout.toolId ⊆ layout.steps := fun _ hstep ↦
  List.mem_append_left _ (List.mem_append_right _ (List.mem_flatMap.2 ⟨block, h, hstep⟩))

/-- The outputs are among the identifiers that are drawn, in the same order. -/
theorem outputIds_sublist (h : ∀ block ∈ layout.blocks, block.Complete) :
    (layout.steps.filterMap Step.outputId?).Sublist layout.ids := by
  have hblock : ∀ block ∈ layout.blocks,
      ((block.steps layout.inputId layout.toolId).filterMap Step.outputId?).Sublist block.ids := by
    intro block hmem
    rw [Block.filterMap_outputId?_steps (h block hmem), Block.ids]
    exact .cons _ (.append_left (.cons_cons _ (.cons_cons _ (List.nil_sublist _))) _)
  rw [steps, List.filterMap_append, List.filterMap_append, List.filterMap_flatMap, ids]
  show (([layout.inputId, layout.toolId] ++ _) ++ []).Sublist _
  rw [List.append_nil]
  exact .append_left (.flatMap_right _ hblock) [layout.inputId, layout.toolId]

/-- A value that a list yields only once is that of a single member. -/
theorem filter_eq_singleton {α : Type} {f : α → Option String} {members : List α}
    (h : (members.filterMap f).Nodup) {member : α} (hmem : member ∈ members) {id : String}
    (hid : f member = some id) : members.filter (fun other ↦ f other = some id) = [member] := by
  obtain ⟨before, after, rfl⟩ := List.append_of_mem hmem
  rw [List.filterMap_append, List.filterMap_cons_some hid] at h
  obtain ⟨-, hafter, hdisjoint⟩ := List.nodup_append.1 h
  have hnot (others : List α) (hothers : id ∉ others.filterMap f) :
      others.filter (fun other ↦ f other = some id) = [] :=
    List.filter_eq_nil_iff.2 fun other hother hfound ↦
      hothers (List.mem_filterMap.2 ⟨other, hother, of_decide_eq_true hfound⟩)
  rw [List.filter_append, List.filter_cons_of_pos (by simp [hid]),
    hnot before fun hbefore ↦ hdisjoint id hbefore id List.mem_cons_self rfl,
    hnot after (List.nodup_cons.1 hafter).1, List.nil_append]

/-- When no identifier is drawn twice, steps refer to single steps. -/
theorem resolves_of_closed (hids : layout.ids.Nodup)
    (hcomplete : ∀ block ∈ layout.blocks, block.Complete) {known steps : List Step}
    (hsubset : known ++ steps ⊆ layout.steps) (h : Step.Closed known steps) :
    layout.Resolves known steps := by
  intro before step after hsplit id hid
  obtain ⟨source, hsource, hout⟩ := h before step after hsplit id hid
  have hmem : source ∈ layout.steps := by
    refine hsubset ?_
    rw [hsplit, ← List.append_assoc]
    exact List.mem_append_left _ hsource
  exact ⟨source, hsource,
    filter_eq_singleton (hids.sublist (outputIds_sublist hcomplete)) hmem hout⟩

/-- The grouping identifier of a branch is that of no other. -/
theorem filter_groupingId?_steps (hids : layout.ids.Nodup) {block : Block}
    (hmem : block ∈ layout.blocks) :
    layout.steps.filter (fun step ↦ step.groupingId? = some block.groupingId) =
      [.made (.ifOutputEquals layout.toolId block.spec.effectiveName block.groupingId),
        .made (.endIf block.endId block.groupingId)] := by
  have hnodup : (layout.blocks.map Block.groupingId).Nodup := by
    refine hids.sublist (.cons _ (.cons _ ?_))
    rw [List.map_eq_flatMap]
    exact .flatMap_right _ fun block _ ↦ .cons_cons _ (List.nil_sublist _)
  obtain ⟨before, after, hsplit⟩ := List.append_of_mem hmem
  rw [hsplit, List.map_append, List.map_cons] at hnodup
  obtain ⟨-, hafter, hdisjoint⟩ := List.nodup_append.1 hnodup
  -- The filter leaves nothing of the branches before and after this one.
  have hnone (others : List Block)
      (hothers : block.groupingId ∉ others.map Block.groupingId) :
      (others.flatMap (Block.steps layout.inputId layout.toolId)).filter
        (fun step ↦ step.groupingId? = some block.groupingId) = [] := by
    rw [List.filter_flatMap, List.flatMap_eq_nil_iff]
    intro other hother
    rw [Block.filter_groupingId?_steps,
      if_neg fun heq ↦ hothers (List.mem_map.2 ⟨other, hother, heq⟩)]
  rw [steps, hsplit, List.flatMap_append, List.flatMap_cons]
  simp only [List.filter_append]
  rw [Block.filter_groupingId?_steps, if_pos rfl,
    hnone before fun hbefore ↦ hdisjoint _ hbefore _ List.mem_cons_self rfl,
    hnone after (List.nodup_cons.1 hafter).1]
  rfl

end Layout

/-- **A dispatch workflow is well formed.** It has a header, a branch for each tool and an exit, and
with a supply of sequential identifiers each identifier in it belongs where it is used. -/
theorem workflow_scoped {catalog : Catalog} {stem : String} {built : Workflow}
    (h : workflow catalog (sequentialIds stem) = .ok built) :
    ∃ layout : Layout, layout.Describes catalog (sequentialIds stem) built.actions ∧
      layout.Scoped := by
  obtain ⟨layout, hlayout⟩ := exists_layout h
  have hids : layout.ids.Nodup := by
    rw [hlayout.drawn]
    exact List.nodup_range.map (sequentialIds_injective stem)
  have hinput : ∃ source ∈ layout.header, source.outputId? = some layout.inputId :=
    ⟨.made (.dictionaryInput layout.inputId), by simp [Layout.header], rfl⟩
  have htool : ∃ source ∈ layout.header, source.outputId? = some layout.toolId :=
    ⟨.made (.getValueForKey layout.inputId none toolKey layout.toolId), by simp [Layout.header],
      rfl⟩
  refine ⟨layout, hlayout, hids, ?_, fun block hblock ↦ ?_,
    fun block hblock ↦ Layout.filter_groupingId?_steps hids hblock⟩
  · refine Layout.resolves_of_closed hids hlayout.complete layout.header_subset ?_
    refine .cons_of_none rfl (.cons_of_none rfl (.cons ?_ .nil))
    rintro _ ⟨⟩
    exact ⟨.made (.dictionaryInput layout.inputId), by simp, rfl⟩
  · exact Layout.resolves_of_closed hids hlayout.complete
      (List.append_subset.2 ⟨layout.header_subset, layout.steps_subset hblock⟩)
      (Block.closed_steps (hlayout.complete block hblock) hinput htool)

/-- A tool written by hand: a template with its places. -/
def writtenTool (template : Action) (paths : NameMap Path) : TaggedSpec where
  toolType := "tools"
  spec :=
    { definition := ⟨template.identifier, "", paths.map fun _ _ ↦ ⟨true, "", .string⟩, .string⟩
      override := none
      metadata := ⟨template, paths⟩ }

/-- Two tools. The template of the first has an identifier already, and that of the second looks
like the end of the first branch. -/
def deceptive : Catalog where
  specs :=
    [writtenTool ⟨"copy", ⟨[("UUID", .string "ID-1"), ("x", .reference "v"), ("y", .reference "w")],
        by decide⟩⟩ ⟨[("x", [.key "x"]), ("y", [.key "y"])], by decide⟩,
      writtenTool (Scaffold.action (.endIf "ID-8" "ID-3")) ∅]

/-- The identifiers drawn are distinct and scoped, though one of the templates carries `ID-3` as
well. -/
theorem exists_workflow_deceptive :
    ∃ built, ∃ layout : Layout, workflow deceptive (sequentialIds "ID") = .ok built ∧
      layout.Describes deceptive (sequentialIds "ID") built.actions ∧ layout.Scoped ∧
      layout.ids = ["ID-1", "ID-2", "ID-3", "ID-4", "ID-5", "ID-6", "ID-7", "ID-8", "ID-9", "ID-10",
        "ID-11", "ID-12"] := by
  have h : workflow deceptive (sequentialIds "ID") = .ok _ := rfl
  obtain ⟨layout, hlayout, hscoped⟩ := workflow_scoped h
  exact ⟨_, layout, h, hlayout, hscoped, hlayout.drawn.trans rfl⟩

end Dispatch

end ActionTools
