import ActionTools.Entries

/-!
# Maps sorted by name

A `NameMap` holds its pairs in strictly increasing order of their keys; the order of strings is
that of their code points, which is also the order of their UTF-8 bytes. The order is part of the
type, so a map is determined by its look-ups (`NameMap.ext_get?`): two maps that answer every name
alike are equal, whatever the order in which they were filled.

The operations act on the underlying list (`insertSorted`, `List.filter`), and each is followed by
what it does to `get?`.
-/

namespace ActionTools

/-- Pairs in strictly increasing order of their keys. -/
structure NameMap (α : Type) where
  /-- The pairs, least key first. -/
  entries : List (String × α)
  /-- Each key is less than all later ones. -/
  sorted : entries.Pairwise fun first second ↦ first.1 < second.1
  deriving DecidableEq

namespace NameMap

variable {α β : Type}

/-- The map without names. -/
def empty : NameMap α := ⟨[], .nil⟩

instance : EmptyCollection (NameMap α) := ⟨empty⟩

instance : Inhabited (NameMap α) := ⟨empty⟩

/-- The value of a name. -/
def get? (map : NameMap α) (name : String) : Option α := map.entries.lookup name

/-- Whether a name has a value. -/
def contains (map : NameMap α) (name : String) : Bool := (map.get? name).isSome

/-- The names, least first. -/
def names (map : NameMap α) : List String := map.entries.map Prod.fst

/-- The values, in the order of their names. -/
def values (map : NameMap α) : List α := map.entries.map Prod.snd

/-- The number of names. -/
def size (map : NameMap α) : Nat := map.entries.length

/-! ### Inserting -/

/-- `key` with `value` put where it belongs among sorted pairs, in place of an earlier value. -/
def insertSorted (key : String) (value : α) : List (String × α) → List (String × α)
  | [] => [(key, value)]
  | (k, v) :: rest =>
    if key < k then (key, value) :: (k, v) :: rest
    else if k = key then (key, value) :: rest
    else (k, v) :: insertSorted key value rest

/-- The pairs after an insertion are the new one and old ones. -/
theorem mem_insertSorted {key : String} {value : α} {pairs : List (String × α)}
    {pair : String × α} (h : pair ∈ insertSorted key value pairs) :
    pair = (key, value) ∨ pair ∈ pairs := by
  induction pairs with
  | nil => simpa [insertSorted] using h
  | cons first rest ih =>
    obtain ⟨k, v⟩ := first
    rw [insertSorted] at h
    split at h
    · simpa using h
    · split at h
      · rcases List.mem_cons.1 h with h | h
        · exact .inl h
        · exact .inr (List.mem_cons_of_mem _ h)
      · rcases List.mem_cons.1 h with h | h
        · exact .inr (h ▸ List.mem_cons_self)
        · exact (ih h).imp id (List.mem_cons_of_mem _)

/-- An insertion keeps pairs sorted. This is what `insert` needs for its result to be a map. -/
theorem pairwise_insertSorted (key : String) (value : α) {pairs : List (String × α)}
    (h : pairs.Pairwise fun first second ↦ first.1 < second.1) :
    (insertSorted key value pairs).Pairwise fun first second ↦ first.1 < second.1 := by
  induction pairs with
  | nil => simp [insertSorted]
  | cons first rest ih =>
    obtain ⟨k, v⟩ := first
    obtain ⟨hfirst, hrest⟩ := List.pairwise_cons.1 h
    rw [insertSorted]
    split
    · rename_i hlt
      refine List.pairwise_cons.2 ⟨fun pair hmem ↦ ?_, h⟩
      rcases List.mem_cons.1 hmem with rfl | hmem
      · exact hlt
      · exact String.lt_trans hlt (hfirst pair hmem)
    · split
      · rename_i heq
        subst heq
        exact List.pairwise_cons.2 ⟨fun pair hmem ↦ hfirst pair hmem, hrest⟩
      · rename_i hnlt hne
        refine List.pairwise_cons.2 ⟨fun pair hmem ↦ ?_, ih hrest⟩
        rcases mem_insertSorted hmem with rfl | hmem
        · rcases Decidable.em (k < key) with hlt | hge
          · exact hlt
          · exact absurd (String.le_antisymm (String.not_lt.1 hnlt) (String.not_lt.1 hge)) hne
        · exact hfirst pair hmem

/-- The map with `name` bound to `value`, in place of an earlier value. -/
def insert (map : NameMap α) (name : String) (value : α) : NameMap α :=
  ⟨insertSorted name value map.entries, pairwise_insertSorted name value map.sorted⟩

/-- The map without `name`. -/
def erase (map : NameMap α) (name : String) : NameMap α :=
  ⟨map.entries.filter (·.1 != name), map.sorted.filter _⟩

/-- The map of pairs in which a repeated key has its last value. -/
def ofList (pairs : List (String × α)) : NameMap α :=
  pairs.foldl (fun map pair ↦ map.insert pair.1 pair.2) empty

/-- The map with every value replaced by what `f` makes of it and its name. -/
def map (f : String → α → β) (names : NameMap α) : NameMap β :=
  ⟨names.entries.map fun pair ↦ (pair.1, f pair.1 pair.2),
    List.pairwise_map.2 names.sorted⟩

/-! ### What the operations do to look-ups -/

/-- The inserted value is found, also where it replaces another one. -/
theorem lookup_insertSorted_self (key : String) (value : α) (pairs : List (String × α)) :
    (insertSorted key value pairs).lookup key = some value := by
  induction pairs with
  | nil => simp [insertSorted]
  | cons first rest ih =>
    obtain ⟨k, v⟩ := first
    rw [insertSorted]
    split
    · simp
    · split
      · simp
      · rename_i hne
        have h : (key == k) = false := by simpa using Ne.symm hne
        simp [List.lookup_cons, h, ih]

/-- An insertion does not change what is found under other names. -/
theorem lookup_insertSorted_of_ne {key name : String} (hne : name ≠ key) (value : α)
    (pairs : List (String × α)) :
    (insertSorted key value pairs).lookup name = pairs.lookup name := by
  have h : (name == key) = false := by simpa using hne
  induction pairs with
  | nil => simp [insertSorted, List.lookup_cons, h]
  | cons first rest ih =>
    obtain ⟨k, v⟩ := first
    rw [insertSorted]
    split
    · simp [List.lookup_cons, h]
    · split
      · rename_i heq
        subst heq
        simp [List.lookup_cons, h]
      · simp [List.lookup_cons, ih]

theorem get?_insert_self (map : NameMap α) (name : String) (value : α) :
    (map.insert name value).get? name = some value :=
  lookup_insertSorted_self name value map.entries

theorem get?_insert_of_ne (map : NameMap α) {name key : String} (h : name ≠ key) (value : α) :
    (map.insert key value).get? name = map.get? name :=
  lookup_insertSorted_of_ne h value map.entries

theorem lookup_filter_self (key : String) (pairs : List (String × α)) :
    (pairs.filter (·.1 != key)).lookup key = none := by
  induction pairs with
  | nil => rfl
  | cons first rest ih =>
    obtain ⟨k, v⟩ := first
    by_cases hk : k = key
    · simpa [hk] using ih
    · have h : (key == k) = false := by simpa using Ne.symm hk
      simpa [hk, List.lookup_cons, h] using ih

theorem lookup_filter_of_ne {key name : String} (hne : name ≠ key) (pairs : List (String × α)) :
    (pairs.filter (·.1 != key)).lookup name = pairs.lookup name := by
  induction pairs with
  | nil => rfl
  | cons first rest ih =>
    obtain ⟨k, v⟩ := first
    by_cases hk : k = key
    · have h : (name == k) = false := by simpa [hk] using hne
      rw [List.filter_cons_of_neg (by simpa using hk), List.lookup_cons, h]
      exact ih
    · rw [List.filter_cons_of_pos (by simpa using hk), List.lookup_cons, List.lookup_cons, ih]

theorem get?_erase_self (map : NameMap α) (name : String) : (map.erase name).get? name = none :=
  lookup_filter_self name map.entries

theorem get?_erase_of_ne (map : NameMap α) {name key : String} (h : name ≠ key) :
    (map.erase key).get? name = map.get? name :=
  lookup_filter_of_ne h map.entries

/-- After an insertion the name has the new value and the other names have theirs. -/
theorem get?_insert (map : NameMap α) (name key : String) (value : α) :
    (map.insert key value).get? name = if name = key then some value else map.get? name := by
  split
  · rename_i h
    rw [h, get?_insert_self]
  · rename_i h
    exact map.get?_insert_of_ne h value

/-- A name that is there is not the free one that gets a value. -/
theorem get?_insert_of_free {map : NameMap α} {name key : String} {value : α}
    (hname : map.get? name = some value) (hkey : map.get? key = none) (new : α) :
    (map.insert key new).get? name = some value := by
  rw [get?_insert_of_ne, hname]
  rintro rfl
  rw [hname] at hkey
  cases hkey

/-- After an erasure the name has no value and the other names have theirs. -/
theorem get?_erase (map : NameMap α) (name key : String) :
    (map.erase key).get? name = if name = key then none else map.get? name := by
  split
  · rename_i h
    rw [h, get?_erase_self]
  · rename_i h
    exact map.get?_erase_of_ne h

theorem get?_erase_of_none {map : NameMap α} {name : String} (h : map.get? name = none)
    (key : String) : (map.erase key).get? name = none := by
  rw [get?_erase, h, ite_self]

@[simp] theorem get?_empty (name : String) : (∅ : NameMap α).get? name = none := rfl

/-- A value of the map in which all are changed is the changed value. -/
@[simp] theorem get?_map (f : String → α → β) (names : NameMap α) (name : String) :
    (names.map f).get? name = (names.get? name).map (f name) :=
  Entries.lookup_map f name names.entries

@[simp] theorem names_map (f : String → α → β) (names : NameMap α) :
    (names.map f).names = names.names := by
  simp [NameMap.names, NameMap.map]

/-! ### Names -/

theorem length_names (map : NameMap α) : map.names.length = map.size := List.length_map Prod.fst

/-- No name is listed twice, as the names are in strictly increasing order. -/
theorem nodup_keys_entries (map : NameMap α) : (Entries.keys map.entries).Nodup :=
  List.pairwise_map.2 (map.sorted.imp String.ne_of_lt)

/-- A name has a value exactly if the two are a pair of the map. -/
theorem get?_eq_some_iff {map : NameMap α} {name : String} {value : α} :
    map.get? name = some value ↔ (name, value) ∈ map.entries :=
  Entries.lookup_eq_some_iff map.nodup_keys_entries

/-- The names without a value are those that are not listed. -/
theorem get?_eq_none_iff {map : NameMap α} {name : String} :
    map.get? name = none ↔ name ∉ map.names :=
  Entries.lookup_eq_none_iff

/-- The names listed are those that have a value. -/
theorem mem_names_iff {map : NameMap α} {name : String} :
    name ∈ map.names ↔ ∃ value, map.get? name = some value := by
  rw [← Option.ne_none_iff_exists', ne_eq, get?_eq_none_iff, Decidable.not_not]

theorem contains_iff {map : NameMap α} {name : String} :
    map.contains name = true ↔ name ∈ map.names := by
  rw [contains, ← Option.ne_none_iff_isSome, ne_eq, get?_eq_none_iff, Decidable.not_not]

/-- The first name with a property is the least one. -/
theorem find?_names_eq_some {map : NameMap α} {p : String → Bool} {name : String}
    (hmem : name ∈ map.names) (hname : p name = true)
    (hleast : ∀ other ∈ map.names, p other = true → name ≤ other) :
    map.names.find? p = some name := by
  have hsorted : map.names.Pairwise (· < ·) := List.pairwise_map.2 map.sorted
  obtain ⟨before, after, hsplit⟩ := List.append_of_mem hmem
  rw [hsplit] at hsorted hleast ⊢
  refine List.find?_eq_some_iff_append.2 ⟨hname, before, after, rfl, fun other hother ↦ ?_⟩
  have hlt := (List.pairwise_append.1 hsorted).2.2 other hother name List.mem_cons_self
  cases hother' : p other with
  | false => rfl
  | true =>
    have hle := hleast other (List.mem_append_left _ hother) hother'
    exact absurd hle (String.not_le.2 hlt)

/-! ### Extensionality -/

/-- A name less than all that are listed is not found. -/
theorem lookup_eq_none_of_forall_lt {key : String} {pairs : List (String × α)}
    (h : ∀ pair ∈ pairs, key < pair.1) : pairs.lookup key = none := by
  induction pairs with
  | nil => rfl
  | cons first rest ih =>
    obtain ⟨k, v⟩ := first
    have hlt : key < k := h (k, v) List.mem_cons_self
    have hne : (key == k) = false := by
      simpa using fun heq : key = k ↦ String.lt_irrefl k (heq ▸ hlt)
    rw [List.lookup_cons, hne]
    exact ih fun pair hmem ↦ h pair (List.mem_cons_of_mem _ hmem)

/-- What is found among sorted pairs is not less than their first name. -/
theorem le_of_lookup_cons {k key : String} {v value : α} {rest : List (String × α)}
    (h : ((k, v) :: rest).Pairwise fun a b ↦ a.1 < b.1)
    (hfound : ((k, v) :: rest).lookup key = some value) : k ≤ key := by
  refine String.not_lt.1 fun hlt ↦ ?_
  have hnone : ((k, v) :: rest).lookup key = none := by
    refine lookup_eq_none_of_forall_lt (List.forall_mem_cons.2 ⟨hlt, fun pair hmem ↦ ?_⟩)
    exact String.lt_trans hlt ((List.pairwise_cons.1 h).1 pair hmem)
  rw [hnone] at hfound
  cases hfound

/-- Sorted lists of pairs that answer every look-up alike are equal. -/
theorem eq_of_lookup_eq {first second : List (String × α)}
    (hfirst : first.Pairwise fun a b ↦ a.1 < b.1) (hsecond : second.Pairwise fun a b ↦ a.1 < b.1)
    (h : ∀ key, first.lookup key = second.lookup key) : first = second := by
  induction first generalizing second with
  | nil =>
    cases second with
    | nil => rfl
    | cons pair rest => cases (h pair.1).trans List.lookup_cons_self
  | cons pair rest ih =>
    obtain ⟨k, v⟩ := pair
    cases second with
    | nil => cases (h k).symm.trans List.lookup_cons_self
    | cons pair' rest' =>
      obtain ⟨k', v'⟩ := pair'
      -- Either list has the first name of the other, so neither of the two names is less.
      obtain rfl : k = k' :=
        String.le_antisymm (le_of_lookup_cons hfirst ((h k').trans List.lookup_cons_self))
          (le_of_lookup_cons hsecond ((h k).symm.trans List.lookup_cons_self))
      obtain ⟨hlt, hrest⟩ := List.pairwise_cons.1 hfirst
      obtain ⟨hlt', hrest'⟩ := List.pairwise_cons.1 hsecond
      obtain rfl : v = v' := by simpa [List.lookup_cons] using h k
      congr 1
      refine ih hrest hrest' fun key ↦ ?_
      by_cases hkey : key = k
      · subst hkey
        rw [lookup_eq_none_of_forall_lt hlt, lookup_eq_none_of_forall_lt hlt']
      · have hne : (key == k) = false := by simpa using hkey
        have hfound := h key
        rwa [List.lookup_cons, List.lookup_cons, hne] at hfound

/-- A map is determined by its look-ups. -/
theorem ext_get? {first second : NameMap α} (h : ∀ name, first.get? name = second.get? name) :
    first = second := by
  obtain ⟨pairs, hpairs⟩ := first
  obtain ⟨pairs', hpairs'⟩ := second
  have : pairs = pairs' := eq_of_lookup_eq hpairs hpairs' h
  subst this
  rfl

end NameMap

end ActionTools
