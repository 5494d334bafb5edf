import ActionTools.Catalog
import ActionTools.Proofs.Tool

/-!
# Reading back catalogs and workflows

A catalog or a workflow is read back from its text, pretty or compact, exactly when that is not
nested too deep (`texts_read_back`). What is read is the very value: keys of mappings in their
order, an override that sets nothing apart from none, a key of digits apart from an index.

This rests on three facts. A record is read back from the document that it is written as
(`TaggedSpec.ofDocument?_document`, `Workflow.ofDocument?_document`). The text of a value is read as
that document up to the limit of nesting (`Json.reread_eq_document`). And what lies beyond the limit
spoils the whole, since of a catalog and of a workflow each part is read
(`Catalog.depth_le_of_reread`, `Workflow.depth_le_of_reread`).
-/

namespace ActionTools

open Document

namespace Catalog

/-! ### Catalogs with and without room -/

/-- The four that a catalog puts around the parameters of a template leave them readable. -/
def Shallow (catalog : Catalog) : Prop :=
  ∀ tagged ∈ catalog.specs, tagged.spec.metadata.parametersDepth + 4 ≤ nestingLimit

instance (catalog : Catalog) : Decidable catalog.Shallow :=
  inferInstanceAs (Decidable (∀ tagged ∈ catalog.specs,
    tagged.spec.metadata.parametersDepth + 4 ≤ nestingLimit))

variable {catalog : Catalog}

theorem shallow_of_specs {tagged : TaggedSpec} (h : catalog.specs = [tagged]) :
    catalog.Shallow ↔ tagged.spec.metadata.parametersDepth + 4 ≤ nestingLimit := by
  rw [Shallow, h, List.forall_mem_singleton]

/-- What a catalog puts around the parameters of a template is all that it adds to their nesting. -/
theorem shallow_iff : catalog.Shallow ↔ catalog.json.depth ≤ nestingLimit := by
  have htagged (tagged : TaggedSpec) :
      tagged.spec.metadata.parametersDepth + 4 ≤ nestingLimit ↔ tagged.json.depth ≤ 126 := by
    rw [tagged.depth_json, nestingLimit]
    omega
  rw [json, nestingLimit, Json.depth_array_le_iff, List.forall_mem_map]
  exact forall₂_congr fun tagged _ ↦ htagged tagged

/-- All doubles of a catalog are in the parameters of its templates. -/
theorem readsBack_json
    (h : ∀ tagged ∈ catalog.specs, tagged.spec.metadata.template.parameters.json.ReadsBack) :
    catalog.json.ReadsBack := by
  refine Json.readsBack_array.2 fun item hitem ↦ ?_
  obtain ⟨tagged, htagged, rfl⟩ := List.mem_map.1 hitem
  exact TaggedSpec.readsBack_json (h tagged htagged)

/-- A catalog is read back, tool by tool. -/
theorem ofDocument?_document (h : ∀ tagged ∈ catalog.specs, tagged.spec.metadata.Indexable) :
    ofDocument? catalog.json.document = some catalog := by
  have hlist : catalog.json.document.list? TaggedSpec.ofDocument? = some catalog.specs :=
    list?_document fun tagged htagged ↦ TaggedSpec.ofDocument?_document (h tagged htagged)
  rw [ofDocument?, hlist, Option.map_some]

/-- The text of a catalog that is not nested too deep is read back, whichever way it is printed. -/
theorem parse_text_of_depth_le (hdepth : catalog.json.depth ≤ nestingLimit)
    (hdoubles : catalog.json.ReadsBack)
    (hindexable : ∀ tagged ∈ catalog.specs, tagged.spec.metadata.Indexable) (isPretty : Bool) :
    parse (catalog.text isPretty) = .ok catalog := by
  have hroom : 0 + catalog.json.depth ≤ nestingLimit := (Nat.zero_add _).le.trans hdepth
  have hread : Document.parse? (catalog.text isPretty) = some catalog.json.document := by
    rw [text, Json.parse?_text, Json.reread_eq_document hdoubles hroom]
  rw [parse, hread, Option.bind_some, ofDocument?_document hindexable]

/-- The text of a shallow catalog is read back, as four levels are all that is put around
parameters. -/
theorem parse_text_of_shallow (hshallow : catalog.Shallow)
    (hdoubles : ∀ tagged ∈ catalog.specs,
      tagged.spec.metadata.template.parameters.json.ReadsBack)
    (hindexable : ∀ tagged ∈ catalog.specs, tagged.spec.metadata.Indexable) (isPretty : Bool) :
    parse (catalog.text isPretty) = .ok catalog :=
  parse_text_of_depth_le (shallow_iff.1 hshallow) (readsBack_json hdoubles) hindexable isPretty

/-- A catalog that is read from its text is not nested too deep: each of its tools is read as a
whole. -/
theorem depth_le_of_reread {found : Catalog}
    (h : ofDocument? (catalog.json.reread 0) = some found) : catalog.json.depth ≤ nestingLimit := by
  obtain ⟨specs, hspecs, -⟩ := Option.map_eq_some_iff.1 h
  have hdepth : 0 + catalog.json.depth ≤ nestingLimit :=
    depth_le_of_list? (by decide)
      (fun _ _ _ htagged ↦ TaggedSpec.depth_le_of_reread (by decide) htagged) hspecs
  rwa [Nat.zero_add] at hdepth

/-- A tool without room spoils the catalog. -/
theorem parse_text_of_not_shallow (h : ¬ catalog.Shallow) (isPretty : Bool) :
    parse (catalog.text isPretty) = .error .invalidJson := by
  have hnone : ofDocument? (catalog.json.reread 0) = none := by
    rw [Option.eq_none_iff_forall_ne_some]
    exact fun found hfound ↦ h (shallow_iff.2 (depth_le_of_reread hfound))
  rw [parse, text, Json.parse?_text, Option.bind_some, hnone]

end Catalog

/-! ### Both formats -/

/-- **Catalogs and workflows are read back from either of their texts, up to the limit of nesting.**
A text with fewer than 128 levels gives the very value, which therefore is written alike again; any
other is refused. The doubles are such as are read back from what they are printed as, and the
indices in the paths such as a sequence can have. -/
theorem texts_read_back :
    (∀ catalog : Catalog, catalog.json.ReadsBack →
        (∀ tagged ∈ catalog.specs, tagged.spec.metadata.Indexable) → ∀ isPretty,
          Catalog.parse (catalog.text isPretty) =
            if catalog.json.depth < 128 then .ok catalog else .error .invalidJson) ∧
      ∀ workflow : Workflow, workflow.json.ReadsBack → ∀ isPretty,
        (Document.parse? (workflow.json.text isPretty)).bind Workflow.ofDocument? =
          if workflow.json.depth < 128 then some workflow else none := by
  refine ⟨fun catalog hdoubles hindexable isPretty ↦ ?_, fun workflow hdoubles isPretty ↦ ?_⟩
  · split
    · next hdepth =>
      exact Catalog.parse_text_of_depth_le (Nat.le_of_lt_succ hdepth) hdoubles hindexable isPretty
    · next hdeep =>
      refine Catalog.parse_text_of_not_shallow (fun hshallow ↦ hdeep ?_) isPretty
      exact Nat.lt_succ_of_le (Catalog.shallow_iff.1 hshallow)
  · split
    · next hdepth =>
      exact Workflow.ofDocument?_parse?_text hdoubles (Nat.le_of_lt_succ hdepth) isPretty
    · next hdeep =>
      exact Workflow.ofDocument?_parse?_text_eq_none (fun hdepth ↦ hdeep (Nat.lt_succ_of_le hdepth))
        isPretty

/-- An action with texts that need escapes, keys in no order, and numbers of all kinds. -/
def manifold : Action where
  identifier := "fill \"in\"\n"
  parameters :=
    ⟨[("z\\", .array [.null, .array [], .object [], .object [("3", .reference "é")]]),
      ("", .number (.whole ⟨-1, by decide, by decide⟩)),
      ("a\t", .array [.ofNat 0xFFFFFFFFFFFFFFFF, .number (.double (.zero true)),
        -- The double next to a tenth.
        .number (.double ⟨false, 0x3FB999999999999A, by decide⟩)])], by decide⟩

/-- Tools for it with no override, one that sets nothing, and one that sets some fields. -/
def manifoldCatalog : Catalog :=
  let definition : Definition := ⟨"fill", "Fills\nin.", ∅, .object⟩
  let metadata : Metadata := ⟨manifold, ⟨[("v", [.key "z\\", .index 3, .key "3"])], by decide⟩⟩
  ⟨[⟨"tools", ⟨⟨definition, none⟩, metadata⟩⟩, ⟨"tools", ⟨⟨definition, some ∅⟩, metadata⟩⟩,
    ⟨"", ⟨⟨definition, some ⟨some "", none, some ∅, none⟩⟩, ⟨manifold, ∅⟩⟩⟩]⟩

/-- The tools and a workflow of the action are read back. -/
theorem texts_read_back_manifold :
    Catalog.parse (manifoldCatalog.text true) = .ok manifoldCatalog ∧
      Catalog.parse (manifoldCatalog.text false) = .ok manifoldCatalog ∧
      (Document.parse? ((Workflow.ofActions [manifold, manifold]).json.text true)).bind
        Workflow.ofDocument? = some (.ofActions [manifold, manifold]) := by
  obtain ⟨hcatalogs, hworkflows⟩ := texts_read_back
  have hdoubles : manifoldCatalog.json.ReadsBack := by decide +kernel
  have hindexable : ∀ tagged ∈ manifoldCatalog.specs, tagged.spec.metadata.Indexable := by decide
  have hdepth : manifoldCatalog.json.depth < 128 := by decide +kernel
  refine ⟨?_, ?_, ?_⟩
  · rw [hcatalogs manifoldCatalog hdoubles hindexable true, if_pos hdepth]
  · rw [hcatalogs manifoldCatalog hdoubles hindexable false, if_pos hdepth]
  · rw [hworkflows (.ofActions [manifold, manifold]) (by decide +kernel) true]
    exact if_pos (by decide +kernel)

end ActionTools
