import ActionTools.Catalog
import ActionTools.Proofs.NameMap
import Mathlib.Data.List.NodupEquivFin
import Mathlib.Data.Nat.Find

/-!
# Which tool answers to a name

Callers read a tool's name off its listed definition, and look the tool up by its effective name.
These are computed apart, from the same override, and are the same (`name_effectiveDefinition`). Of
several tools with one name only the first is found (`Catalog.FoundAt`), so a tool is reachable by
its listed name exactly when no earlier tool has that name (`Catalog.foundAt_listed_iff`).

The names under which some tool is hidden are those that some tool shares with an earlier one
(`Catalog.mem_duplicateNames_iff`). The list of them is sorted, being read off a `NameMap`, and it
is empty exactly when every tool is found under the name it is listed by.
-/

namespace ActionTools

/-- **The listed name is the effective one.** -/
theorem Interface.name_effectiveDefinition (interface : Interface) :
    interface.effectiveDefinition.name = interface.effectiveName := by
  rw [effectiveDefinition, effectiveName]
  cases interface.override <;> rfl

namespace Catalog

variable {catalog : Catalog} {name : String} {position : Nat} {tagged : TaggedSpec}

/-! ### Names by position -/

theorem getElem?_names (catalog : Catalog) (position : Nat) :
    catalog.names[position]? =
      (catalog.specs[position]?).map fun tagged ↦ tagged.spec.effectiveName :=
  List.getElem?_map

/-- A definition is listed under the name of its tool: an override renames both. -/
theorem getElem?_definitions_name (catalog : Catalog) (position : Nat) :
    (catalog.definitions[position]?).map Definition.name = catalog.names[position]? := by
  rw [definitions, names, List.getElem?_map, List.getElem?_map, Option.map_map]
  refine congrArg (fun f ↦ Option.map f catalog.specs[position]?) (funext fun tagged ↦ ?_)
  exact tagged.spec.name_effectiveDefinition

/-- The definitions list the effective names. -/
theorem exists_definition_iff :
    (∃ definition, catalog.definitions[position]? = some definition ∧ definition.name = name) ↔
      catalog.names[position]? = some name := by
  rw [← getElem?_definitions_name, Option.map_eq_some_iff]

/-- Some tool before a position has a name. -/
def NamedBefore (catalog : Catalog) (name : String) (position : Nat) : Prop :=
  ∃ earlier < position, catalog.names[earlier]? = some name

/-- Looking a name up gives the tool at a position, which is the first of that name. -/
structure FoundAt (catalog : Catalog) (name : String) (position : Nat) : Prop where
  exists_get : ∃ tagged, catalog.specs[position]? = some tagged ∧
    tagged.spec.effectiveName = name ∧ catalog.get name = .ok tagged
  first : ¬ catalog.NamedBefore name position

/-! ### Looking up -/

/-- **The first tool of a name is found**, and no other. -/
theorem find?_eq_some_iff :
    catalog.find? name = some tagged ↔
      ∃ position, catalog.specs[position]? = some tagged ∧
        tagged.spec.effectiveName = name ∧ ¬ catalog.NamedBefore name position := by
  rw [find?, List.find?_eq_some_iff_getElem, beq_iff_eq]
  constructor
  · rintro ⟨hname, position, hlt, rfl, hfirst⟩
    refine ⟨position, List.getElem?_eq_getElem hlt, hname, ?_⟩
    rintro ⟨earlier, hearlier, hsame⟩
    rw [getElem?_names, List.getElem?_eq_getElem (Nat.lt_trans hearlier hlt)] at hsame
    exact bne_iff_ne.1 (hfirst earlier hearlier) (Option.some.inj hsame)
  · rintro ⟨position, hget, hname, hfirst⟩
    obtain ⟨hlt, hget⟩ := List.getElem?_eq_some_iff.1 hget
    refine ⟨hname, position, hlt, hget, fun earlier hearlier ↦ ?_⟩
    refine bne_iff_ne.2 fun hsame ↦ hfirst ⟨earlier, hearlier, ?_⟩
    rw [getElem?_names, List.getElem?_eq_getElem (Nat.lt_trans hearlier hlt), Option.map_some,
      hsame]

/-- Asking for a tool by name gives what the search finds. -/
theorem get_eq_ok_iff : catalog.get name = .ok tagged ↔ catalog.find? name = some tagged := by
  rw [get]
  cases catalog.find? name <;> simp

theorem get_eq_error (h : name ∉ catalog.names) :
    catalog.get name = .error (.toolNotFound name) := by
  have hnone : catalog.find? name = none := by
    refine List.find?_eq_none.2 fun tagged htagged hname ↦ h ?_
    exact List.mem_map.2 ⟨tagged, htagged, eq_of_beq hname⟩
  rw [get, hnone]

/-- The tool found under a name is the first with that name. -/
theorem foundAt_iff :
    catalog.FoundAt name position ↔
      catalog.names[position]? = some name ∧ ¬ catalog.NamedBefore name position := by
  rw [getElem?_names, Option.map_eq_some_iff]
  constructor
  · rintro ⟨⟨tagged, hget, hname, -⟩, hfirst⟩
    exact ⟨⟨tagged, hget, hname⟩, hfirst⟩
  · rintro ⟨⟨tagged, hget, hname⟩, hfirst⟩
    refine ⟨⟨tagged, hget, hname, ?_⟩, hfirst⟩
    exact get_eq_ok_iff.2 (find?_eq_some_iff.2 ⟨position, hget, hname, hfirst⟩)

/-- Every name of a tool is found at some position, the least one of that name. -/
theorem exists_foundAt (h : catalog.names[position]? = some name) :
    ∃ first ≤ position, catalog.FoundAt name first := by
  classical
  have hsome : ∃ position, catalog.names[position]? = some name := ⟨position, h⟩
  refine ⟨Nat.find hsome, Nat.find_min' hsome h, foundAt_iff.2 ⟨Nat.find_spec hsome, ?_⟩⟩
  rintro ⟨earlier, hearlier, hsame⟩
  exact Nat.find_min hsome hearlier hsame

/-- No name is found at two positions. -/
theorem FoundAt.eq {position' : Nat} (h : catalog.FoundAt name position)
    (h' : catalog.FoundAt name position') : position = position' := by
  obtain ⟨hname, hfirst⟩ := foundAt_iff.1 h
  obtain ⟨hname', hfirst'⟩ := foundAt_iff.1 h'
  rcases Nat.lt_trichotomy position position' with hlt | heq | hgt
  · exact absurd ⟨position, hlt, hname⟩ hfirst'
  · exact heq
  · exact absurd ⟨position', hgt, hname'⟩ hfirst

/-- A tool is found under its name exactly when no earlier tool has that name. -/
theorem FoundAt.eq_iff {position' : Nat} (h : catalog.FoundAt name position)
    (hname : catalog.names[position']? = some name) :
    position = position' ↔ ¬ catalog.NamedBefore name position' := by
  constructor
  · rintro rfl
    exact h.first
  · exact fun hfirst ↦ h.eq (foundAt_iff.2 ⟨hname, hfirst⟩)

/-! ### Names of more than one tool -/

/-- A name is repeated when it has been seen and comes again, or comes twice. -/
theorem mem_repeated_iff {seen names : List String} :
    name ∈ repeated seen names ↔ (name ∈ seen ∧ name ∈ names) ∨ names.Duplicate name := by
  induction names generalizing seen with
  | nil => simp [repeated]
  | cons first rest ih =>
    rw [repeated, List.duplicate_cons_iff, List.mem_cons]
    split_ifs with hseen
    · rw [List.contains_iff_mem] at hseen
      rw [List.mem_cons, ih]
      by_cases hname : name = first
      · simp [hname, hseen]
      · simp [hname, Ne.symm hname]
    · rw [List.contains_iff_mem] at hseen
      rw [ih, List.mem_cons]
      by_cases hname : name = first
      · simp [hname, hseen]
      · simp [hname, Ne.symm hname]

/-- **The names reported are those that several tools have.** -/
theorem mem_duplicateNames : name ∈ catalog.duplicateNames ↔ catalog.names.Duplicate name := by
  have hpairs : (repeated [] catalog.names).map (Prod.fst ∘ fun name ↦ (name, ())) =
      repeated [] catalog.names := List.map_id _
  rw [duplicateNames, NameMap.mem_names_ofList, Entries.keys, List.map_map, hpairs,
    mem_repeated_iff]
  simp

/-- **The duplicate names are those that a tool shares with an earlier one.** -/
theorem mem_duplicateNames_iff :
    name ∈ catalog.duplicateNames ↔
      ∃ position, catalog.names[position]? = some name ∧ catalog.NamedBefore name position := by
  rw [mem_duplicateNames, List.duplicate_iff_exists_distinct_get]
  constructor
  · rintro ⟨earlier, position, hlt, hearlier, hposition⟩
    exact ⟨position, hposition ▸ List.getElem?_eq_getElem position.2, earlier, hlt,
      hearlier ▸ List.getElem?_eq_getElem earlier.2⟩
  · rintro ⟨position, hposition, earlier, hlt, hearlier⟩
    obtain ⟨hlength, hget⟩ := List.getElem?_eq_some_iff.1 hposition
    obtain ⟨hlength', hget'⟩ := List.getElem?_eq_some_iff.1 hearlier
    exact ⟨⟨earlier, hlength'⟩, ⟨position, hlength⟩, hlt, hget'.symm, hget.symm⟩

/-- Names are reported in order, and each once. -/
theorem pairwise_duplicateNames (catalog : Catalog) :
    catalog.duplicateNames.Pairwise (· < ·) :=
  List.pairwise_map.2 (NameMap.ofList _).sorted

/-! ### Listed names -/

/-- **Every listed tool is found by its listed name, or hidden and reported.** Looking up a listed
name gives the first tool of that name, looking up any other fails, and the duplicate names are
those under which a listed tool is not itself found. -/
theorem listed_found_or_reported (catalog : Catalog) :
    (∀ position definition, catalog.definitions[position]? = some definition →
      ∃ first, catalog.FoundAt definition.name first ∧
        (first = position ↔ ∀ earlier < position, ∀ other,
          catalog.definitions[earlier]? = some other → other.name ≠ definition.name)) ∧
      (∀ name, (∀ definition ∈ catalog.definitions, definition.name ≠ name) →
        catalog.get name = .error (.toolNotFound name)) ∧
      catalog.duplicateNames.Pairwise (· < ·) ∧
      (∀ name, name ∈ catalog.duplicateNames ↔
        ∃ position definition, catalog.definitions[position]? = some definition ∧
          definition.name = name ∧ ¬ catalog.FoundAt name position) ∧
      (catalog.duplicateNames = [] ↔
        ∀ position definition, catalog.definitions[position]? = some definition →
          catalog.FoundAt definition.name position) := by
  -- A name is reported when a tool with it stands behind another, so that it is not the one found.
  have hduplicates : ∀ name, name ∈ catalog.duplicateNames ↔
      ∃ position definition, catalog.definitions[position]? = some definition ∧
        definition.name = name ∧ ¬ catalog.FoundAt name position := by
    intro name
    rw [mem_duplicateNames_iff]
    refine exists_congr fun position ↦ ?_
    rw [← exists_definition_iff, ← exists_and_right]
    refine exists_congr fun definition ↦ ?_
    rw [and_assoc]
    refine and_congr_right fun hget ↦ and_congr_right fun hname ↦ ?_
    rw [foundAt_iff, ← exists_definition_iff, not_and, not_not]
    exact ⟨fun hbefore _ ↦ hbefore, fun h ↦ h ⟨definition, hget, hname⟩⟩
  refine ⟨fun position definition hget ↦ ?_, fun name hnone ↦ get_eq_error fun hmem ↦ ?_,
    pairwise_duplicateNames catalog, hduplicates, ?_⟩
  · have hname : catalog.names[position]? = some definition.name :=
      exists_definition_iff.1 ⟨definition, hget, rfl⟩
    obtain ⟨first, -, hfound⟩ := exists_foundAt hname
    refine ⟨first, hfound, (hfound.eq_iff hname).trans ?_⟩
    simp only [NamedBefore, ← exists_definition_iff, not_exists, not_and]
  · obtain ⟨position, hposition⟩ := List.mem_iff_getElem?.1 hmem
    obtain ⟨definition, hget, hname⟩ := exists_definition_iff.2 hposition
    exact hnone definition (List.mem_of_getElem? hget) hname
  · rw [List.eq_nil_iff_forall_not_mem]
    simp only [hduplicates, not_exists, not_and, not_not]
    constructor
    · exact fun h position definition hget ↦ h _ position definition hget rfl
    · rintro h _ position definition hget rfl
      exact h position definition hget

/-- A tool without parameters, renamed by its override. -/
def renamedTool (name newName : String) : TaggedSpec where
  toolType := "tools"
  spec :=
    { definition := ⟨name, "", ∅, .string⟩
      override := some ⟨some newName, none, none, none⟩
      metadata := ⟨⟨name, .empty⟩, ∅⟩ }

/-- Two tools that have swapped their names, and a third that takes the new name of the first. -/
def swapped : Catalog := ⟨[renamedTool "a" "b", renamedTool "b" "a", renamedTool "c" "b"]⟩

/-- The second tool is found by its listed name, the third is hidden and reported. -/
theorem listed_found_or_reported_swapped :
    swapped.FoundAt "a" 1 ∧ (∃ first, swapped.FoundAt "b" first ∧ first ≠ 2) ∧
      swapped.get "c" = .error (.toolNotFound "c") ∧ swapped.duplicateNames = ["b"] ∧
      ¬ ∀ position definition, swapped.definitions[position]? = some definition →
        swapped.FoundAt definition.name position := by
  obtain ⟨hlisted, hother, -, -, hnone⟩ := listed_found_or_reported swapped
  obtain ⟨first, hfirst, hself⟩ := hlisted 1 _ rfl
  obtain ⟨first', hfirst', hself'⟩ := hlisted 2 _ rfl
  have hone : first = 1 := by
    refine hself.2 fun earlier hearlier other hget ↦ ?_
    obtain rfl : earlier = 0 := by omega
    cases hget
    decide
  refine ⟨hone ▸ hfirst, ⟨first', hfirst', fun htwo ↦ hself'.1 htwo 0 (by decide) _ rfl rfl⟩,
    hother "c" (by decide), by decide, ?_⟩
  rw [← hnone]
  decide

end Catalog

end ActionTools
