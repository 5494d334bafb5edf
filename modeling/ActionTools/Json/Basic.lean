import ActionTools.Entries
import ActionTools.Json.Number

/-!
# JSON values

A value is a scalar, a sequence or a mapping in insertion order. The type itself lets a mapping
repeat a key; `Json.Distinct` says that none does, at any depth, and `Tree` and `Mapping` are the
values and mappings with that property. Every value read from text is a `Tree`, and the operations
of this library on trees give trees.

Functions on `Json` recurse through lists of items and of entries, so each comes with two companions
for the lists. `Json.induction` packs the same recursion into one principle, usable by `induction`:
its hypotheses for sequences and mappings range over the members.
-/

namespace ActionTools

/-- A JSON value. -/
inductive Json where
  | null
  | bool (value : Bool)
  | number (value : Number)
  | string (value : String)
  | array (items : List Json)
  | object (entries : List (String × Json))

namespace Json

instance : Inhabited Json := ⟨null⟩

/-! ### Induction -/

/-- Structural induction, the hypotheses for sequences and mappings ranging over the members. -/
@[elab_as_elim, induction_eliminator]
theorem induction {motive : Json → Prop} (null : motive .null)
    (bool : ∀ value, motive (.bool value)) (number : ∀ value, motive (.number value))
    (string : ∀ value, motive (.string value))
    (array : ∀ items, (∀ item ∈ items, motive item) → motive (.array items))
    (object : ∀ entries, (∀ entry ∈ entries, motive entry.2) → motive (.object entries))
    (json : Json) : motive json :=
  @Json.rec motive (fun items ↦ ∀ item ∈ items, motive item)
    (fun entries ↦ ∀ entry ∈ entries, motive entry.2) (fun entry ↦ motive entry.2)
    null bool number string (fun items h ↦ array items h) (fun entries h ↦ object entries h)
    (fun _ h ↦ absurd h List.not_mem_nil)
    (fun _ _ hhead htail item h ↦ by
      rcases List.mem_cons.1 h with rfl | h
      · exact hhead
      · exact htail item h)
    (fun _ h ↦ absurd h List.not_mem_nil)
    (fun _ _ hhead htail entry h ↦ by
      rcases List.mem_cons.1 h with rfl | h
      · exact hhead
      · exact htail entry h)
    (fun _ _ h ↦ h) json

/-! ### Decidable equality -/

mutual

/-- Equality of values is decided by comparing them part by part. -/
def decEq : (a b : Json) → Decidable (a = b)
  | null, b => by
    cases b
    case null => exact isTrue rfl
    all_goals exact isFalse nofun
  | bool x, b => by
    cases b
    case bool y => exact decidable_of_iff (x = y) (by simp)
    all_goals exact isFalse nofun
  | number x, b => by
    cases b
    case number y => exact decidable_of_iff (x = y) (by simp)
    all_goals exact isFalse nofun
  | string x, b => by
    cases b
    case string y => exact decidable_of_iff (x = y) (by simp)
    all_goals exact isFalse nofun
  | array xs, b => by
    cases b
    case array ys =>
      exact match decEqItems xs ys with
        | isTrue h => isTrue (congrArg array h)
        | isFalse h => isFalse fun heq ↦ h (array.inj heq)
    all_goals exact isFalse nofun
  | object xs, b => by
    cases b
    case object ys =>
      exact match decEqEntries xs ys with
        | isTrue h => isTrue (congrArg object h)
        | isFalse h => isFalse fun heq ↦ h (object.inj heq)
    all_goals exact isFalse nofun

/-- Equality of sequences is decided item by item. -/
def decEqItems : (xs ys : List Json) → Decidable (xs = ys)
  | [], [] => isTrue rfl
  | [], _ :: _ => isFalse nofun
  | _ :: _, [] => isFalse nofun
  | x :: xs, y :: ys =>
    match decEq x y, decEqItems xs ys with
    | isTrue h, isTrue h' => isTrue (h ▸ h' ▸ rfl)
    | isFalse h, _ => isFalse fun heq ↦ h (List.cons.inj heq).1
    | _, isFalse h => isFalse fun heq ↦ h (List.cons.inj heq).2

/-- Equality of mappings is decided entry by entry. -/
def decEqEntries : (xs ys : List (String × Json)) → Decidable (xs = ys)
  | [], [] => isTrue rfl
  | [], _ :: _ => isFalse nofun
  | _ :: _, [] => isFalse nofun
  | (k, x) :: xs, (k', y) :: ys =>
    match decEq x y, decEqEntries xs ys, (inferInstance : Decidable (k = k')) with
    | isTrue h, isTrue h', isTrue h'' => isTrue (h ▸ h' ▸ h'' ▸ rfl)
    | isFalse h, _, _ => isFalse fun heq ↦ h (Prod.mk.inj (List.cons.inj heq).1).2
    | _, isFalse h, _ => isFalse fun heq ↦ h (List.cons.inj heq).2
    | _, _, isFalse h => isFalse fun heq ↦ h (Prod.mk.inj (List.cons.inj heq).1).1

end

instance : DecidableEq Json := decEq

/-! ### Looking into a value -/

/-- The value of a key, when this is a mapping that has it. -/
def get? : Json → String → Option Json
  | .object entries, key => entries.lookup key
  | _, _ => none

/-- The value at the end of a chain of keys. -/
def at? (json : Json) : List String → Option Json
  | [] => some json
  | key :: rest => (json.get? key).bind fun child ↦ child.at? rest

/-- The text, when this is one. -/
def string? : Json → Option String
  | .string value => some value
  | _ => none

/-- The natural number, when this is one of 64 bits. -/
def nat? : Json → Option Nat
  | .number value => value.nat?
  | _ => none

/-- The items, when this is a sequence. -/
def items? : Json → Option (List Json)
  | .array items => some items
  | _ => none

/-- The entries, when this is a mapping. -/
def entries? : Json → Option (List (String × Json))
  | .object entries => some entries
  | _ => none

/-- The number of a natural number that fits 64 bits. -/
def ofNat (n : Nat) (h : n ≤ 0xFFFFFFFFFFFFFFFF := by decide) : Json := .number (.ofNat n h)

/-! ### Nesting -/

mutual

/-- The number of sequences and mappings around the innermost part of a value. -/
def depth : Json → Nat
  | .array items => depthItems items + 1
  | .object entries => depthEntries entries + 1
  | _ => 0

/-- The greatest depth among items. -/
def depthItems : List Json → Nat
  | [] => 0
  | item :: rest => max item.depth (depthItems rest)

/-- The greatest depth among the values of entries. -/
def depthEntries : List (String × Json) → Nat
  | [] => 0
  | (_, value) :: rest => max value.depth (depthEntries rest)

end

end Json

end ActionTools
