import ActionTools.Proofs.Json.Canonical

/-!
# What it is for values to be equal as data

`Json.equal` computes; `Json.Alike` says what it computes. Values are alike when they are built
alike, where sequences have to agree item by item, mappings only in what each key is bound to, and
numbers have to be the same, except that the two zeros among the doubles pass for one another. In
particular an integer is alike to no double.

Equality as data is this relation (`Json.equal_iff_alike`), and the canonical text decides it
(`Tree.canonical_eq_canonical_iff`).
-/

namespace ActionTools

namespace Json

/-- Built alike, but for the order of keys and the sign of zero. -/
inductive Alike : Json → Json → Prop
  | null : Alike .null .null
  | bool (value : Bool) : Alike (.bool value) (.bool value)
  | number (value : Number) : Alike (.number value) (.number value)
  | zero {x y : Binary64} (hx : x.isZero = true) (hy : y.isZero = true) :
      Alike (.number (.double x)) (.number (.double y))
  | string (value : String) : Alike (.string value) (.string value)
  | array {as bs : List Json} (hitems : List.Forall₂ Alike as bs) : Alike (.array as) (.array bs)
  /-- Each key is bound in both, to values that are alike, or in neither. -/
  | object {as bs : List (String × Json)}
      (hentries : ∀ key, Option.Rel Alike (as.lookup key) (bs.lookup key)) :
      Alike (.object as) (.object bs)

/-- Numbers are alike exactly if they are equal. -/
theorem alike_number_iff {m n : Number} :
    Alike (.number m) (.number n) ↔ m.equal n = true := by
  constructor
  · intro h
    cases h with
    | number => exact m.equal_refl
    | zero hx hy => exact Binary64.equal_iff.2 (.inr ⟨hx, hy⟩)
  · intro h
    cases m with
    | whole m =>
      cases n with
      | whole n => exact eq_of_beq h ▸ .number _
      | double y => cases h
    | double x =>
      cases n with
      | whole n => cases h
      | double y =>
        rcases Binary64.equal_iff.1 h with rfl | ⟨hx, hy⟩
        · exact .number _
        · exact .zero hx hy

/-- Sequences are equal exactly if their items are alike in pairs, given that equal items are those
that are alike. -/
theorem equalItems_iff_forall₂ {as bs : List Json}
    (h : ∀ a ∈ as, ∀ b ∈ bs, a.equal b = true ↔ Alike a b) :
    equalItems as bs = true ↔ List.Forall₂ Alike as bs := by
  induction as generalizing bs with
  | nil => cases bs <;> simp [equalItems]
  | cons a as ih =>
    cases bs with
    | nil => simp [equalItems]
    | cons b bs =>
      have hrest := ih fun a ha b hb ↦ h a (.tail _ ha) b (.tail _ hb)
      rw [equalItems, Bool.and_eq_true, List.forall₂_cons, hrest,
        h a (List.mem_cons_self ..) b (List.mem_cons_self ..)]

/-- What mappings have under a key is equal exactly if it is alike, given that equal values are
those that are alike. -/
theorem equalFound_iff_rel {as bs : Entries Json} {key : String}
    (h : ∀ a, (key, a) ∈ as → ∀ b, (key, b) ∈ bs → (a.equal b = true ↔ Alike a b)) :
    EqualFound (as.lookup key) (bs.lookup key) ↔
      Option.Rel Alike (as.lookup key) (bs.lookup key) := by
  cases hget : as.lookup key with
  | none => cases hget' : bs.lookup key <;> simp [EqualFound]
  | some a =>
    cases hget' : bs.lookup key with
    | none => simp [EqualFound]
    | some b =>
      have hiff := h a (Entries.mem_of_lookup hget) b (Entries.mem_of_lookup hget')
      simp [EqualFound, hiff]

/-- **Equality as data is being alike**, among values that repeat no key. -/
theorem equal_iff_alike {a b : Json} (ha : a.Distinct) (hb : b.Distinct) :
    a.equal b = true ↔ Alike a b := by
  -- Induction on the first value; values of different kinds are neither equal nor alike.
  induction a generalizing b with
  | null =>
    cases b with
    | null => exact ⟨fun _ ↦ .null, fun _ ↦ rfl⟩
    | _ => constructor <;> intro h <;> cases h
  | bool value =>
    cases b with
    | bool value' =>
      rw [equal, beq_iff_eq]
      exact ⟨fun h ↦ h ▸ .bool value, fun h ↦ by cases h; rfl⟩
    | _ => constructor <;> intro h <;> cases h
  | number value =>
    cases b with
    | number value' => rw [equal, alike_number_iff]
    | _ => constructor <;> intro h <;> cases h
  | string value =>
    cases b with
    | string value' =>
      rw [equal, beq_iff_eq]
      exact ⟨fun h ↦ h ▸ .string value, fun h ↦ by cases h; rfl⟩
    | _ => constructor <;> intro h <;> cases h
  | array items ih =>
    cases b with
    | array items' =>
      rw [equal, equalItems_iff_forall₂ fun item hitem item' hitem' ↦
        ih item hitem (ha.of_mem_items hitem) (hb.of_mem_items hitem')]
      exact ⟨.array, fun h ↦ by cases h; assumption⟩
    | _ => constructor <;> intro h <;> cases h
  | object entries ih =>
    cases b with
    | object entries' =>
      have hkeys := (distinct_object.1 ha).1
      have hkeys' := (distinct_object.1 hb).1
      rw [equal_object_iff_forall hkeys hkeys', forall_congr' fun key ↦
        equalFound_iff_rel fun value hvalue value' hvalue' ↦
          ih _ hvalue (ha.of_mem_entries hvalue) (hb.of_mem_entries hvalue')]
      exact ⟨.object, fun h ↦ by cases h; assumption⟩
    | _ => constructor <;> intro h <;> cases h

end Json

namespace Tree

/-- **The canonical text decides equality as data**: two trees have the same canonical text exactly
when they are equal, and that is when they are built alike but for the order of keys and the sign
of zero. -/
theorem canonical_eq_canonical_iff (a b : Tree) :
    (a.json.canonical = b.json.canonical ↔ a.equal b = true) ∧
      (a.equal b = true ↔ a.json.Alike b.json) :=
  ⟨Json.canonical_eq_iff a.distinct b.distinct, Json.equal_iff_alike a.distinct b.distinct⟩

end Tree

end ActionTools
