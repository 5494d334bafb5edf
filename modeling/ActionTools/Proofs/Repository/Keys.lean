import ActionTools.Proofs.Json.Canonical
import ActionTools.Tool

/-!
# The canonical texts of actions and metadata

A repository files an action under the digest of its canonical text, and metadata likewise. Both
texts are those of a value with fixed fields, and equality of that value is equality of the fields
(`equal_fields`). So actions have the same canonical text exactly when they are equal as data
(`Action.canonical_eq_iff`), and metadata too (`Metadata.canonical_eq_iff`), as long as a path is
written as it is: an index from `Segment.indexLimit` on is not, and no sequence is so long that it
could occur (`Metadata.Indexable`).

Since having the same text is an equivalence, so is being equal.
-/

namespace ActionTools

namespace Json

/-- Values with the same two fields are equal when the fields are. -/
theorem equal_fields {first second : String} (hne : first ≠ second) {a b a' b' : Json} :
    equal (.object [(first, a), (second, b)]) (.object [(first, a'), (second, b')]) = true ↔
      a.equal a' = true ∧ b.equal b' = true := by
  have hsecond : (second == first) = false := beq_false_of_ne hne.symm
  simp [equal, equalEntries, List.lookup_cons, hsecond]

/-- Two different fields with distinct values make a distinct mapping. -/
theorem distinct_fields {first second : String} (hne : first ≠ second) {a b : Json}
    (ha : a.Distinct) (hb : b.Distinct) : Distinct (.object [(first, a), (second, b)]) := by
  simp [Entries.keys, hne, ha, hb]

variable {α : Type} {write : α → Json}

/-- A written map has under each name what the map has there. -/
theorem lookup_ofNameMap (map : NameMap α) (name : String) :
    (map.entries.map fun entry ↦ (entry.1, write entry.2)).lookup name =
      (map.get? name).map write :=
  Entries.lookup_map (fun _ value ↦ write value) name map.entries

/-- A map is written under distinct names. -/
theorem nodup_keys_ofNameMap (map : NameMap α) :
    (Entries.keys (map.entries.map fun entry ↦ (entry.1, write entry.2))).Nodup :=
  (map.map fun _ value ↦ write value).nodup_keys_entries

/-- A map of distinct values is written as a distinct mapping. -/
theorem distinct_ofNameMap (hwrite : ∀ value, (write value).Distinct) (map : NameMap α) :
    (ofNameMap write map).Distinct := by
  refine distinct_object.2 ⟨nodup_keys_ofNameMap map, fun entry hentry ↦ ?_⟩
  obtain ⟨entry', -, rfl⟩ := List.mem_map.1 hentry
  exact hwrite entry'.2

/-- Maps whose values are told apart when written are told apart. -/
theorem equal_ofNameMap_iff {first second : NameMap α}
    (hwrite : ∀ name a b, first.get? name = some a → second.get? name = some b →
      ((write a).equal (write b) = true ↔ a = b)) :
    (ofNameMap write first).equal (ofNameMap write second) = true ↔ first = second := by
  rw [ofNameMap, ofNameMap,
    equal_object_iff_forall (nodup_keys_ofNameMap first) (nodup_keys_ofNameMap second)]
  simp only [lookup_ofNameMap]
  constructor
  · intro h
    refine NameMap.ext_get? fun name ↦ ?_
    have hfound := h name
    cases hget : first.get? name with
    | none =>
      cases hget' : second.get? name with
      | none => rfl
      | some b => simp [hget, hget', EqualFound] at hfound
    | some a =>
      cases hget' : second.get? name with
      | none => simp [hget, hget', EqualFound] at hfound
      | some b =>
        have hequal : (write a).equal (write b) = true := by
          simpa [hget, hget', EqualFound] using hfound
        rw [(hwrite name a b hget hget').1 hequal]
  · rintro rfl name
    cases hget : first.get? name with
    | none => exact .none
    | some a => exact .some ((hwrite name a a hget hget).2 rfl)

end Json

/-! ### Actions -/

namespace Action

/-- An action is written with distinct keys, as its parameters have them. -/
theorem distinct_json (action : Action) : action.json.Distinct :=
  Json.distinct_fields (by decide) trivial action.parameters.distinct

/-- **Actions have the same canonical text exactly when they are equal.** -/
theorem canonical_eq_iff {a b : Action} :
    a.json.canonical = b.json.canonical ↔ a.equal b = true := by
  rw [Json.canonical_eq_iff a.distinct_json b.distinct_json, json, json,
    Json.equal_fields (by decide), equal, Bool.and_eq_true]
  rfl

theorem equal_refl (action : Action) : action.equal action = true :=
  canonical_eq_iff.1 rfl

theorem equal_symm {a b : Action} (h : a.equal b = true) : b.equal a = true :=
  canonical_eq_iff.1 (canonical_eq_iff.2 h).symm

theorem equal_trans {a b c : Action} (h : a.equal b = true) (h' : b.equal c = true) :
    a.equal c = true :=
  canonical_eq_iff.1 ((canonical_eq_iff.2 h).trans (canonical_eq_iff.2 h'))

end Action

/-! ### Metadata -/

namespace Segment

/-- The segment is one that a sequence or mapping can have. -/
def Indexable : Segment → Prop
  | .index value => value < indexLimit
  | .key _ => True

instance (segment : Segment) : Decidable segment.Indexable :=
  match segment with
  | .index value => Nat.decLt value indexLimit
  | .key _ => isTrue trivial

theorem distinct_json (segment : Segment) : segment.json.Distinct := by
  cases segment <;> trivial

/-- Segments with indices in range are written alike only if they are the same. -/
theorem equal_json_iff {a b : Segment} (ha : a.Indexable) (hb : b.Indexable) :
    a.json.equal b.json = true ↔ a = b := by
  cases a with
  | key name =>
    cases b with
    | key name' => simp [json, Json.equal]
    | index value' => simp [json, Json.equal, Json.ofNat]
  | index value =>
    cases b with
    | key name' => simp [json, Json.equal, Json.ofNat]
    | index value' =>
      -- Below the limit the written index is the index itself.
      have hmin (n : Nat) (h : n < indexLimit) : min n 0xFFFFFFFFFFFFFFFF = n :=
        Nat.min_eq_left (Nat.le_of_lt_succ h)
      simp [json, Json.equal, Json.ofNat, Number.ofNat, Number.equal, hmin value ha,
        hmin value' hb]

end Segment

namespace Path

theorem distinct_json (path : Path) : path.json.Distinct := by
  refine Json.distinct_array.2 fun item hitem ↦ ?_
  obtain ⟨segment, -, rfl⟩ := List.mem_map.1 hitem
  exact segment.distinct_json

/-- **Paths are written alike only if they are the same**, provided that their indices are in
range. -/
theorem equal_json_iff {a b : Path} (ha : ∀ segment ∈ a, segment.Indexable)
    (hb : ∀ segment ∈ b, segment.Indexable) : a.json.equal b.json = true ↔ a = b := by
  show Json.equalItems (a.map Segment.json) (b.map Segment.json) = true ↔ a = b
  induction a generalizing b with
  | nil => cases b <;> simp [Json.equalItems]
  | cons segment a ih =>
    cases b with
    | nil => simp [Json.equalItems]
    | cons segment' b =>
      obtain ⟨hsegment, ha⟩ := List.forall_mem_cons.1 ha
      obtain ⟨hsegment', hb⟩ := List.forall_mem_cons.1 hb
      rw [List.map_cons, List.map_cons, Json.equalItems, Bool.and_eq_true, ih ha hb,
        Segment.equal_json_iff hsegment hsegment', List.cons.injEq]

end Path

namespace Metadata

/-- Every segment of every path is one that a sequence or mapping can have. -/
def Indexable (metadata : Metadata) : Prop :=
  ∀ entry ∈ metadata.paths.entries, ∀ segment ∈ entry.2, segment.Indexable

instance (metadata : Metadata) : Decidable metadata.Indexable :=
  inferInstanceAs (Decidable (∀ entry ∈ metadata.paths.entries, ∀ segment ∈ entry.2,
    segment.Indexable))

/-- Metadata is written with distinct keys. -/
theorem distinct_json (metadata : Metadata) : metadata.json.Distinct :=
  Json.distinct_fields (by decide) metadata.template.distinct_json
    (Json.distinct_ofNameMap Path.distinct_json metadata.paths)

/-- Metadata is equal when the templates are equal as data and the places are the same. -/
theorem equal_iff {a b : Metadata} :
    a.equal b = true ↔ a.template.equal b.template = true ∧ a.paths = b.paths := by
  rw [equal, Bool.and_eq_true, beq_iff_eq]

/-- **Metadata have the same canonical text exactly when they are equal.** -/
theorem canonical_eq_iff {a b : Metadata} (ha : a.Indexable) (hb : b.Indexable) :
    a.json.canonical = b.json.canonical ↔ a.equal b = true := by
  have htemplate : a.template.json.equal b.template.json = true ↔
      a.template.equal b.template = true := by
    rw [← Json.canonical_eq_iff a.template.distinct_json b.template.distinct_json,
      Action.canonical_eq_iff]
  have hpaths : (Json.ofNameMap Path.json a.paths).equal (Json.ofNameMap Path.json b.paths) = true ↔
      a.paths = b.paths :=
    Json.equal_ofNameMap_iff fun name path path' hpath hpath' ↦
      Path.equal_json_iff (ha _ (NameMap.get?_eq_some_iff.1 hpath))
        (hb _ (NameMap.get?_eq_some_iff.1 hpath'))
  rw [Json.canonical_eq_iff a.distinct_json b.distinct_json, json, json,
    Json.equal_fields (by decide), htemplate, hpaths, equal_iff]

theorem equal_refl (metadata : Metadata) : metadata.equal metadata = true :=
  equal_iff.2 ⟨metadata.template.equal_refl, rfl⟩

theorem equal_symm {a b : Metadata} (h : a.equal b = true) : b.equal a = true := by
  obtain ⟨htemplate, hpaths⟩ := equal_iff.1 h
  exact equal_iff.2 ⟨Action.equal_symm htemplate, hpaths.symm⟩

theorem equal_trans {a b c : Metadata} (h : a.equal b = true) (h' : b.equal c = true) :
    a.equal c = true := by
  obtain ⟨htemplate, hpaths⟩ := equal_iff.1 h
  obtain ⟨htemplate', hpaths'⟩ := equal_iff.1 h'
  exact equal_iff.2 ⟨Action.equal_trans htemplate htemplate', hpaths.trans hpaths'⟩

end Metadata

end ActionTools
