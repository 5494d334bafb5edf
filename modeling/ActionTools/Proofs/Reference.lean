import ActionTools.Proofs.Json.Equality
import ActionTools.Substitution
import Mathlib.Data.List.Nodup
import Mathlib.Data.List.Pairwise

/-!
# Where the references are

`Json.references` walks through a value. Which paths it lists can be said by looking along one path
instead: the empty path is listed when the value is a reference (`nil_mem_references`), and a longer
one when the value is none and the rest of the path is listed for the member that the first segment
addresses (`cons_mem_references`). What else there is to know of listed paths follows by induction
on paths: they are the outermost places of references (`mem_references_iff`), and equal values have
their references at the same places (`references_perm_of_equal`).

The order of the list is the only induction on the value. One path precedes another when, at the
value where they part, its next member comes first (`Json.Precedes`), and the list is in this order
(`pairwise_references`). Paths that part are different and none is the beginning of the other, so
no path is listed twice and none lies inside another.
-/

namespace ActionTools

/-- Neither of two paths is the beginning of the other. -/
def Path.Apart (p q : Path) : Prop := ¬ p <+: q ∧ ¬ q <+: p

instance (p q : Path) : Decidable (p.Apart q) := inferInstanceAs (Decidable (_ ∧ _))

theorem Path.Apart.symm {p q : Path} (h : p.Apart q) : q.Apart p := ⟨h.2, h.1⟩

instance : Std.Symm Path.Apart := ⟨fun _ _ ↦ Path.Apart.symm⟩

theorem Path.Apart.ne {p q : Path} (h : p.Apart q) : p ≠ q :=
  fun heq ↦ h.1 (heq ▸ List.prefix_refl p)

theorem Path.Apart.cons {segment : Segment} {p q : Path} (h : p.Apart q) :
    Path.Apart (segment :: p) (segment :: q) := by
  simpa only [Path.Apart, List.cons_prefix_cons, true_and] using h

theorem Path.Apart.of_cons {segment : Segment} {p q : Path}
    (h : Path.Apart (segment :: p) (segment :: q)) : p.Apart q := by
  simpa only [Path.Apart, List.cons_prefix_cons, true_and] using h

namespace Json

/-- A reference to the variable with the given name, and nothing else. -/
def reference (name : String) : Json :=
  .object [("Type", .string variableTag), (variableNameField, .string name)]

/-! ### Members -/

theorem Distinct.member? {json child : Json} (h : json.Distinct) {segment : Segment}
    (hchild : json.member? segment = some child) : child.Distinct := by
  cases json <;> cases segment <;> first | cases hchild | skip
  case array.index items index => exact h.of_mem_items (List.mem_of_getElem? hchild)
  case object.key entries key => exact h.of_mem_entries (Entries.mem_of_lookup hchild)

/-- Equal values have equal members at a segment, or both have none there. -/
theorem member?_of_equal {a b : Json} (ha : a.Distinct) (h : a.equal b = true)
    (segment : Segment) : EqualFound (a.member? segment) (b.member? segment) := by
  cases a <;> cases b <;> first | cases h | skip
  case array.array as bs =>
    cases segment with
    | index index => exact getElem?_of_equal h index
    | key key => exact .none
  case object.object as bs =>
    cases segment with
    | index index => exact .none
    | key key => exact lookup_of_equal (distinct_object.1 ha).1 h key
  all_goals cases segment <;> exact .none

/-- Being a reference is a matter of what a mapping has under two keys, so equal values agree on
it. -/
theorem isReference_of_equal {a b : Json} (ha : a.Distinct) (h : a.equal b = true) :
    a.isReference = b.isReference := by
  have hstring : ∀ key, (a.get? key).bind string? = (b.get? key).bind string? := fun key ↦
    (get?_of_equal ha h key).bind_string?
  rw [isReference, isReference, hstring, hstring]

/-! ### The paths that are listed -/

/-- A reference is not looked into: what is nested in it is not found. -/
theorem references_of_isReference {json : Json} (h : json.isReference = true) :
    json.references = [[]] := by
  cases json with
  | object entries => rw [references, if_pos h]
  | _ => cases h

/-- The references in items, as a list over the items with their indices. -/
theorem referencesInItems_eq_flatMap (items : List Json) (start : Nat) :
    referencesInItems start items =
      (items.zipIdx start).flatMap fun item ↦ item.1.references.map (.index item.2 :: ·) := by
  induction items generalizing start with
  | nil => rfl
  | cons item rest ih => rw [referencesInItems, ih, List.zipIdx_cons, List.flatMap_cons]

/-- The references in entries, as a list over the entries with their keys. -/
theorem referencesInEntries_eq_flatMap (entries : Entries Json) :
    referencesInEntries entries =
      entries.flatMap fun entry ↦ entry.2.references.map (.key entry.1 :: ·) := by
  induction entries with
  | nil => rfl
  | cons entry rest ih => rw [referencesInEntries, ih, List.flatMap_cons]

/-- A reference in items is one of an item, under the index of that item. -/
theorem mem_referencesInItems {items : List Json} {start : Nat} {path : Path} :
    path ∈ referencesInItems start items ↔
      ∃ index item, items[index]? = some item ∧
        ∃ rest ∈ item.references, .index (start + index) :: rest = path := by
  simp only [referencesInItems_eq_flatMap, List.mem_flatMap, List.mem_map, Prod.exists]
  constructor
  · rintro ⟨item, position, hitem, h⟩
    obtain ⟨hle, hitem⟩ := List.mk_mem_zipIdx_iff_le_and_getElem?_sub.1 hitem
    exact ⟨position - start, item, hitem, by rwa [Nat.add_sub_cancel' hle]⟩
  · rintro ⟨index, item, hitem, h⟩
    refine ⟨item, start + index, List.mk_mem_zipIdx_iff_le_and_getElem?_sub.2 ⟨?_, ?_⟩, h⟩
    · exact Nat.le_add_right start index
    · rwa [Nat.add_sub_cancel_left]

/-- A reference in entries is one of an entry, under the key of that entry. -/
theorem mem_referencesInEntries {entries : Entries Json} {path : Path} :
    path ∈ referencesInEntries entries ↔
      ∃ entry ∈ entries, ∃ rest ∈ entry.2.references, .key entry.1 :: rest = path := by
  simp only [referencesInEntries_eq_flatMap, List.mem_flatMap, List.mem_map]

/-- Only a value that is itself a reference has one at the empty path. -/
theorem nil_mem_references {json : Json} : [] ∈ json.references ↔ json.isReference = true := by
  constructor
  · intro h
    cases json with
    | array items => obtain ⟨_, _, _, _, _, hpath⟩ := mem_referencesInItems.1 h; cases hpath
    | object entries =>
      rw [references] at h
      split at h
      · assumption
      · obtain ⟨_, _, _, _, hpath⟩ := mem_referencesInEntries.1 h
        cases hpath
    | _ => cases h
  · intro h
    rw [references_of_isReference h]
    exact List.mem_singleton_self []

/-- **A path is listed for a value when its rest is listed for the member.** -/
theorem cons_mem_references {json : Json} (hdistinct : json.Distinct) {segment : Segment}
    {rest : Path} :
    segment :: rest ∈ json.references ↔
      json.isReference = false ∧
        ∃ child, json.member? segment = some child ∧ rest ∈ child.references := by
  by_cases href : json.isReference = true
  · -- What is inside a reference is not looked at.
    simp [references_of_isReference href, href]
  rw [Bool.not_eq_true] at href
  rw [and_iff_right href]
  cases json with
  | array items =>
    rw [references, mem_referencesInItems]
    constructor
    · rintro ⟨index, item, hitem, _, hrest, hpath⟩
      cases hpath
      rw [Nat.zero_add]
      exact ⟨item, hitem, hrest⟩
    · rintro ⟨child, hchild, hrest⟩
      cases segment with
      | index index => exact ⟨index, child, hchild, rest, hrest, by rw [Nat.zero_add]⟩
      | key key => cases hchild
  | object entries =>
    rw [references, href, if_neg Bool.false_ne_true, mem_referencesInEntries]
    constructor
    · rintro ⟨entry, hentry, _, hrest, hpath⟩
      cases hpath
      exact ⟨entry.2, Entries.lookup_of_mem (distinct_object.1 hdistinct).1 hentry, hrest⟩
    · rintro ⟨child, hchild, hrest⟩
      cases segment with
      | index index => cases hchild
      | key key => exact ⟨(key, child), Entries.mem_of_lookup hchild, rest, hrest, rfl⟩
  | _ => simp [references, member?]

/-! ### Outermost references -/

/-- A path leads to a reference. -/
def HasReferenceAt (json : Json) (path : Path) : Prop :=
  ∃ leaf, json.atPath? path = some leaf ∧ leaf.isReference = true

theorem hasReferenceAt_nil_iff {json : Json} :
    json.HasReferenceAt [] ↔ json.isReference = true := by
  simp [HasReferenceAt, atPath?]

/-- A reference below a segment is one of the member there. -/
theorem hasReferenceAt_cons_iff {json : Json} {segment : Segment} {rest : Path} :
    json.HasReferenceAt (segment :: rest) ↔
      ∃ child, json.member? segment = some child ∧ child.HasReferenceAt rest := by
  simp only [HasReferenceAt, atPath?, Option.bind_eq_some_iff]
  constructor
  · rintro ⟨leaf, ⟨child, hchild, hleaf⟩, hreference⟩
    exact ⟨child, hchild, leaf, hleaf, hreference⟩
  · rintro ⟨child, hchild, leaf, hleaf, hreference⟩
    exact ⟨leaf, ⟨child, hchild, hleaf⟩, hreference⟩

/-- **The listed paths are those that lead to a reference and not through one.** -/
theorem mem_references_iff {json : Json} (hdistinct : json.Distinct) {path : Path} :
    path ∈ json.references ↔
      json.HasReferenceAt path ∧ ∀ p, p <+: path → p ≠ path → ¬ json.HasReferenceAt p := by
  induction path generalizing json with
  | nil =>
    rw [nil_mem_references, hasReferenceAt_nil_iff, and_iff_left]
    exact fun p hbegin hne ↦ absurd (List.prefix_nil.1 hbegin) hne
  | cons segment rest ih =>
    rw [cons_mem_references hdistinct, hasReferenceAt_cons_iff]
    constructor
    · rintro ⟨hroot, child, hchild, hrest⟩
      obtain ⟨hreference, houtermost⟩ := (ih (hdistinct.member? hchild)).1 hrest
      refine ⟨⟨child, hchild, hreference⟩, fun p hbegin hne hinner ↦ ?_⟩
      -- A reference on the way is the value itself, or it is on the way in the member.
      rcases List.prefix_cons_iff.1 hbegin with rfl | ⟨p, rfl, htail⟩
      · exact Bool.false_ne_true (hroot.symm.trans (hasReferenceAt_nil_iff.1 hinner))
      · obtain ⟨child', hchild', hinner⟩ := hasReferenceAt_cons_iff.1 hinner
        cases hchild.symm.trans hchild'
        exact houtermost p htail (fun heq ↦ hne (congrArg _ heq)) hinner
    · rintro ⟨⟨child, hchild, hreference⟩, houtermost⟩
      have hroot := houtermost [] List.nil_prefix (List.cons_ne_nil segment rest).symm
      rw [hasReferenceAt_nil_iff, Bool.not_eq_true] at hroot
      refine ⟨hroot, child, hchild, (ih (hdistinct.member? hchild)).2 ⟨hreference, ?_⟩⟩
      intro p hbegin hne hinner
      refine houtermost (segment :: p) (List.cons_prefix_cons.2 ⟨rfl, hbegin⟩) ?_ ?_
      · exact fun heq ↦ hne (List.cons.inj heq).2
      · exact hasReferenceAt_cons_iff.2 ⟨child, hchild, hinner⟩

/-- A listed path leads to a reference. -/
theorem hasReferenceAt_of_mem_references {json : Json} (hdistinct : json.Distinct) {path : Path}
    (h : path ∈ json.references) : json.HasReferenceAt path :=
  ((mem_references_iff hdistinct).1 h).1

/-- Only mappings are references. -/
theorem exists_object_of_isReference {json : Json} (h : json.isReference = true) :
    ∃ entries, json = .object entries := by
  cases json with
  | object entries => exact ⟨entries, rfl⟩
  | _ => cases h

/-- At each place that is found there is a mapping shaped like a reference. -/
theorem exists_object_of_mem_references {json : Json} (hdistinct : json.Distinct) {path : Path}
    (h : path ∈ json.references) :
    ∃ entries, json.atPath? path = some (.object entries) ∧
      (object entries).isReference = true := by
  obtain ⟨leaf, hleaf, hreference⟩ := hasReferenceAt_of_mem_references hdistinct h
  obtain ⟨entries, rfl⟩ := exists_object_of_isReference hreference
  exact ⟨entries, hleaf, hreference⟩

/-- The paths listed for the entries of a mapping lead to references, even when the mapping is a
reference itself. -/
theorem hasReferenceAt_of_mem_referencesInEntries {entries : Entries Json}
    (hdistinct : (object entries).Distinct) {path : Path} (h : path ∈ referencesInEntries entries) :
    (object entries).HasReferenceAt path := by
  obtain ⟨hkeys, hvalues⟩ := distinct_object.1 hdistinct
  obtain ⟨⟨key, value⟩, hentry, rest, hrest, rfl⟩ := mem_referencesInEntries.1 h
  obtain ⟨leaf, hleaf, hreference⟩ := hasReferenceAt_of_mem_references (hvalues _ hentry) hrest
  refine ⟨leaf, ?_, hreference⟩
  rw [atPath?, member?, Entries.lookup_of_mem hkeys hentry, Option.bind_some, hleaf]

/-! ### The order of the list -/

/-- Whether a member comes before another: in a sequence by the indices, in a mapping by the order
of the keys. -/
def MemberBefore : Json → Segment → Segment → Prop
  | .array _, .index i, .index j => i < j
  | .object entries, .key k, .key l => [k, l].Sublist (Entries.keys entries)
  | _, _, _ => False

/-- Depth-first order: the paths part at some value, and the first goes on to the earlier member. -/
inductive Precedes : Json → Path → Path → Prop where
  | part {json : Json} {s t : Segment} {p q : Path} (h : json.MemberBefore s t) :
      Precedes json (s :: p) (t :: q)
  | within {json child : Json} {s : Segment} {p q : Path} (hchild : json.member? s = some child)
      (h : child.Precedes p q) : Precedes json (s :: p) (s :: q)

theorem MemberBefore.ne {json : Json} (hdistinct : json.Distinct) {s t : Segment}
    (h : json.MemberBefore s t) : s ≠ t := by
  rintro rfl
  cases json <;> cases s <;> first | exact h | skip
  case array.index items index => exact Nat.lt_irrefl index h
  case object.key entries key =>
    exact List.nodup_iff_sublist.1 (distinct_object.1 hdistinct).1 key h

/-- Where one path precedes another, neither leads to the end of the other. -/
theorem Precedes.apart {json : Json} (hdistinct : json.Distinct) {p q : Path}
    (h : json.Precedes p q) : p.Apart q := by
  induction h with
  | part h =>
    have hne := h.ne hdistinct
    exact ⟨fun hbegin ↦ hne (List.cons_prefix_cons.1 hbegin).1,
      fun hbegin ↦ hne (List.cons_prefix_cons.1 hbegin).1.symm⟩
  | within hchild _ ih => exact (ih (hdistinct.member? hchild)).cons

/-- Items in order, and the references of each in order, are all references in order. -/
theorem pairwise_referencesInItems {items : List Json}
    (h : ∀ item ∈ items, item.references.Pairwise item.Precedes) :
    (referencesInItems 0 items).Pairwise (array items).Precedes := by
  have hsorted : (items.zipIdx.map Prod.snd).Pairwise (· < ·) := by
    rw [List.zipIdx_map_snd]
    exact List.pairwise_lt_range'
  rw [referencesInItems_eq_flatMap, List.pairwise_flatMap]
  refine ⟨fun ⟨item, index⟩ hitem ↦ ?_, (List.pairwise_map.1 hsorted).imp ?_⟩
  · have hget := List.mk_mem_zipIdx_iff_getElem?.1 hitem
    refine List.pairwise_map.2 ((h item (List.mem_of_getElem? hget)).imp fun hlt ↦ ?_)
    exact .within hget hlt
  · intro first second hlt p hp q hq
    obtain ⟨p, -, rfl⟩ := List.mem_map.1 hp
    obtain ⟨q, -, rfl⟩ := List.mem_map.1 hq
    exact .part hlt

/-- Entries in order, and the references of each in order, are all references in order. -/
theorem pairwise_referencesInEntries {entries : Entries Json}
    (hkeys : (Entries.keys entries).Nodup)
    (h : ∀ entry ∈ entries, entry.2.references.Pairwise entry.2.Precedes) :
    (referencesInEntries entries).Pairwise (object entries).Precedes := by
  have hsorted : (Entries.keys entries).Pairwise fun k l ↦
      [k, l].Sublist (Entries.keys entries) :=
    List.pairwise_iff_forall_sublist.2 id
  rw [referencesInEntries_eq_flatMap, List.pairwise_flatMap]
  refine ⟨fun entry hentry ↦ ?_, (List.pairwise_map.1 hsorted).imp ?_⟩
  · refine List.pairwise_map.2 ((h entry hentry).imp fun hlt ↦ ?_)
    exact .within (Entries.lookup_of_mem hkeys hentry) hlt
  · intro first second hbefore p hp q hq
    obtain ⟨p, -, rfl⟩ := List.mem_map.1 hp
    obtain ⟨q, -, rfl⟩ := List.mem_map.1 hq
    exact .part hbefore

/-- **References are listed depth first, in the order of entries and items.** -/
theorem pairwise_references {json : Json} (hdistinct : json.Distinct) :
    json.references.Pairwise json.Precedes := by
  induction json with
  | array items ih =>
    exact pairwise_referencesInItems fun item hitem ↦ ih item hitem (hdistinct.of_mem_items hitem)
  | object entries ih =>
    rw [references]
    split
    · exact List.pairwise_singleton _ _
    · exact pairwise_referencesInEntries (distinct_object.1 hdistinct).1 fun entry hentry ↦
        ih entry hentry (hdistinct.of_mem_entries hentry)
  | _ => exact .nil

/-- **No place is found twice.** -/
theorem nodup_references {json : Json} (hdistinct : json.Distinct) : json.references.Nodup :=
  (pairwise_references hdistinct).imp fun h ↦ (h.apart hdistinct).ne

/-- In a list of paths that precede one another, different paths lie apart. -/
theorem apart_of_pairwise {json : Json} (hdistinct : json.Distinct) {paths : List Path}
    (hpaths : paths.Pairwise json.Precedes) {p q : Path} (hp : p ∈ paths) (hq : q ∈ paths)
    (hne : p ≠ q) : p.Apart q := by
  have hapart : paths.Pairwise Path.Apart := hpaths.imp fun hlt ↦ hlt.apart hdistinct
  exact hapart.forall hp hq hne

/-- **No reference that is found lies inside another.** -/
theorem apart_of_mem_references {json : Json} (hdistinct : json.Distinct) {p q : Path}
    (hp : p ∈ json.references) (hq : q ∈ json.references) (hne : p ≠ q) : p.Apart q :=
  apart_of_pairwise hdistinct (pairwise_references hdistinct) hp hq hne

/-- The places found under the keys of a mapping lie apart, also if the mapping is a reference. -/
theorem apart_of_mem_referencesInEntries {entries : Entries Json}
    (hdistinct : (object entries).Distinct) {p q : Path} (hp : p ∈ referencesInEntries entries)
    (hq : q ∈ referencesInEntries entries) (hne : p ≠ q) : p.Apart q := by
  refine apart_of_pairwise hdistinct ?_ hp hq hne
  exact pairwise_referencesInEntries (distinct_object.1 hdistinct).1 fun entry hentry ↦
    pairwise_references (hdistinct.of_mem_entries hentry)

/-! ### Equal values -/

/-- Equal values have references at the same places. -/
theorem mem_references_of_equal {a b : Json} (ha : a.Distinct) (hb : b.Distinct)
    (h : a.equal b = true) {path : Path} : path ∈ a.references ↔ path ∈ b.references := by
  induction path generalizing a b with
  | nil => rw [nil_mem_references, nil_mem_references, isReference_of_equal ha h]
  | cons segment rest ih =>
    rw [cons_mem_references ha, cons_mem_references hb, isReference_of_equal ha h]
    refine and_congr_right fun _ ↦ ?_
    have hmember := member?_of_equal ha h segment
    generalize hchild : a.member? segment = found at hmember ⊢
    generalize hchild' : b.member? segment = found' at hmember ⊢
    cases hmember with
    | none => rfl
    | some hequal => simpa using ih (ha.member? hchild) (hb.member? hchild') hequal

/-- **Equal values have their references at the same places.** -/
theorem references_perm_of_equal {a b : Json} (ha : a.Distinct) (hb : b.Distinct)
    (h : a.equal b = true) : a.references.Perm b.references :=
  (List.perm_ext_iff_of_nodup (nodup_references ha) (nodup_references hb)).2 fun _ ↦
    mem_references_of_equal ha hb h

end Json

namespace Tree

/-- **The references of a tree.** They are listed depth first and each once, exactly the places to
which a path leads without passing another; so none lies inside another. -/
theorem references_exact (tree : Tree) :
    tree.references.Nodup ∧ tree.references.Pairwise tree.json.Precedes ∧
      (∀ path, path ∈ tree.references ↔ tree.json.HasReferenceAt path ∧
        ∀ p, p <+: path → p ≠ path → ¬ tree.json.HasReferenceAt p) ∧
      ∀ p ∈ tree.references, ∀ q ∈ tree.references, p <+: q → p = q := by
  refine ⟨Json.nodup_references tree.distinct, Json.pairwise_references tree.distinct,
    fun _ ↦ Json.mem_references_iff tree.distinct, fun p hp q hq hbegin ↦ ?_⟩
  by_contra hne
  exact (Json.apart_of_mem_references tree.distinct hp hq hne).1 hbegin

end Tree

end ActionTools
