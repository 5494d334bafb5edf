import ActionTools.Json.Canonical
import ActionTools.Proofs.Json.Equality
import ActionTools.Proofs.Json.Text
import ActionTools.Proofs.NameMap

/-!
# Canonical texts tell values apart

Two values that repeat no key have the same canonical text exactly when they are equal as data
(`canonical_eq_iff`). Half of this is `compact_injective`: equal texts come from equal normal forms.
The other half compares normal forms. In them a mapping is sorted, so it is a function of what its
keys are bound to (`entries_ofList_eq_iff`), and equality as data is exactly agreement on that
(`equal_object_iff_forall`).

Values are compared member by member, so the proof is one induction in which both directions are
carried together.
-/

namespace ActionTools

namespace Json

/-! ### Mappings by what their keys are bound to -/

/-- Mappings are equal when each key is bound in both, to equal values, or in neither. -/
theorem equal_object_iff_forall {as bs : Entries Json} (hkeys : (Entries.keys as).Nodup)
    (hkeys' : (Entries.keys bs).Nodup) :
    equal (.object as) (.object bs) = true ↔ ∀ key, EqualFound (as.lookup key) (bs.lookup key) := by
  constructor
  · exact lookup_of_equal hkeys
  · intro h
    have hmem (key : String) : key ∈ Entries.keys as ↔ key ∈ Entries.keys bs := by
      rw [← not_iff_not, ← Entries.lookup_eq_none_iff, ← Entries.lookup_eq_none_iff]
      have hfound := h key
      cases hget : as.lookup key <;> cases hget' : bs.lookup key <;> simp_all [EqualFound]
    have hperm : (Entries.keys as).Perm (Entries.keys bs) :=
      (List.perm_ext_iff_of_nodup hkeys hkeys').2 hmem
    have hlength : as.length = bs.length := by simpa [Entries.keys] using hperm.length_eq
    refine equal_object_iff.2 ⟨hlength, fun entry hentry ↦ ?_⟩
    have hfound := h entry.1
    rw [Entries.lookup_of_mem hkeys hentry] at hfound
    generalize bs.lookup entry.1 = found at hfound ⊢
    cases hfound with
    | some hequal => exact ⟨_, rfl, hequal⟩

/-! ### Normal forms -/

theorem normalItems_eq (items : List Json) : normalItems items = items.map normal := by
  induction items with
  | nil => rfl
  | cons item rest ih => rw [normalItems, ih, List.map_cons]

theorem normalEntries_eq (entries : List (String × Json)) :
    normalEntries entries = entries.map fun entry ↦ (entry.1, entry.2.normal) := by
  induction entries with
  | nil => rfl
  | cons entry rest ih => rw [normalEntries, ih, List.map_cons]

/-- Normal forms of values stand under the same keys. -/
theorem keys_normalEntries (entries : List (String × Json)) :
    Entries.keys (normalEntries entries) = Entries.keys entries := by
  simp [normalEntries_eq, Entries.keys]

/-- Under a key there is the normal form of what was there. -/
theorem lookup_normalEntries (entries : List (String × Json)) (key : String) :
    (normalEntries entries).lookup key = (entries.lookup key).map normal := by
  rw [normalEntries_eq]
  exact Entries.lookup_map (fun _ value ↦ value.normal) key entries

/-- **Numbers have one normal form exactly if they are equal.** The only number that is not its own
normal form is the negative zero. -/
theorem normalNumber_eq_iff {m n : Number} :
    normalNumber m = normalNumber n ↔ m.equal n = true := by
  cases m with
  | whole m =>
    cases n with
    | whole n => simp [normalNumber, Number.equal]
    | double y =>
      simp only [normalNumber, Number.equal, Bool.false_eq_true, iff_false]
      split <;> simp
  | double x =>
    cases n with
    | whole n =>
      simp only [normalNumber, Number.equal, Bool.false_eq_true, iff_false]
      split <;> simp
    | double y =>
      rw [Number.equal, Binary64.equal_iff, normalNumber, normalNumber]
      cases hx : x.isZero <;> cases hy : y.isZero
      · simp
      · have hne : x ≠ y := fun heq ↦ by simp [heq, hy] at hx
        have hzero : x ≠ .zero false := fun heq ↦ by
          simp [heq, Binary64.isZero, Binary64.zero] at hx
        simp [hne, hzero]
      · have hne : x ≠ y := fun heq ↦ by simp [heq, hy] at hx
        have hzero : .zero false ≠ y := fun heq ↦ by
          simp [← heq, Binary64.isZero, Binary64.zero] at hy
        simp [hne, hzero]
      · simp

/-- Sequences have the same normal items exactly if they are equal, given that this is so of their
items. -/
theorem map_normal_eq_iff {as bs : List Json}
    (h : ∀ a ∈ as, ∀ b ∈ bs, a.normal = b.normal ↔ a.equal b = true) :
    as.map normal = bs.map normal ↔ equalItems as bs = true := by
  induction as generalizing bs with
  | nil => cases bs <;> simp [equalItems]
  | cons a as ih =>
    cases bs with
    | nil => simp [equalItems]
    | cons b bs =>
      have hrest := ih fun a ha b hb ↦ h a (.tail _ ha) b (.tail _ hb)
      rw [List.map_cons, List.map_cons, List.cons.injEq, equalItems, Bool.and_eq_true, hrest,
        h a (List.mem_cons_self ..) b (List.mem_cons_self ..)]

/-- Mappings have the same normal value under a key exactly if their values there are equal, given
that this is so of all values under the key. -/
theorem map_normal_lookup_eq_iff {as bs : Entries Json} {key : String}
    (h : ∀ a, (key, a) ∈ as → ∀ b, (key, b) ∈ bs → (a.normal = b.normal ↔ a.equal b = true)) :
    (as.lookup key).map normal = (bs.lookup key).map normal ↔
      EqualFound (as.lookup key) (bs.lookup key) := by
  cases hget : as.lookup key with
  | none => cases hget' : bs.lookup key <;> simp [EqualFound]
  | some a =>
    cases hget' : bs.lookup key with
    | none => simp [EqualFound]
    | some b =>
      have hiff := h a (Entries.mem_of_lookup hget) b (Entries.mem_of_lookup hget')
      simp [EqualFound, hiff]

/-- **Values have the same normal form exactly when they are equal as data.** -/
theorem normal_eq_iff {a b : Json} (ha : a.Distinct) (hb : b.Distinct) :
    a.normal = b.normal ↔ a.equal b = true := by
  induction a generalizing b with
  | null => cases b <;> simp [normal, equal]
  | bool value => cases b <;> simp [normal, equal]
  | number value => cases b <;> simp [normal, equal, normalNumber_eq_iff]
  | string value => cases b <;> simp [normal, equal]
  | array items ih =>
    cases b with
    | array items' =>
      rw [normal, normal, array.injEq, normalItems_eq, normalItems_eq, equal]
      exact map_normal_eq_iff fun item hitem item' hitem' ↦
        ih item hitem (ha.of_mem_items hitem) (hb.of_mem_items hitem')
    | _ => simp [normal, equal]
  | object entries ih =>
    cases b with
    | object entries' =>
      have hkeys := (distinct_object.1 ha).1
      have hkeys' := (distinct_object.1 hb).1
      rw [normal, normal, object.injEq,
        NameMap.entries_ofList_eq_iff (by rwa [keys_normalEntries]) (by rwa [keys_normalEntries]),
        equal_object_iff_forall hkeys hkeys']
      -- Sorted entries are the same when every key is bound alike, which is how mappings are
      -- compared.
      refine forall_congr' fun key ↦ ?_
      rw [lookup_normalEntries, lookup_normalEntries]
      exact map_normal_lookup_eq_iff fun value hvalue value' hvalue' ↦
        ih _ hvalue (ha.of_mem_entries hvalue) (hb.of_mem_entries hvalue')
    | _ => simp [normal, equal]

/-- **Values have the same canonical text exactly when they are equal as data.** -/
theorem canonical_eq_iff {a b : Json} (ha : a.Distinct) (hb : b.Distinct) :
    a.canonical = b.canonical ↔ a.equal b = true := by
  rw [canonical, canonical, compact_injective.eq_iff, normal_eq_iff ha hb]

end Json

end ActionTools
