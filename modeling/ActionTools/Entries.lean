/-!
# Entries in the order of their keys' arrival

A mapping that remembers the order in which its keys came is a list of pairs. `Entries.set` is the
one way such a list grows: a key that is there keeps its place and gets the new value, a new key
goes to the end. Looking up is core's `List.lookup`, which answers with the first pair of a key.

`lookup_set_self` and `lookup_set_of_ne` say what `set` does to every look-up, and
`nodup_keys_set` that keys stay distinct. Folding `set` over pairs that may repeat a key
(`Entries.merge`) therefore gives each key once, at its first place and with its last value.
-/

namespace ActionTools

/-- Pairs of a key and a value, in the order in which the keys came. -/
abbrev Entries (α : Type) := List (String × α)

namespace Entries

variable {α β : Type}

/-- The keys, in their order. -/
def keys (entries : Entries α) : List String := entries.map Prod.fst

/-- The entries with `key` bound to `value`: in its place when it is there, else at the end. -/
def set (key : String) (value : α) : Entries α → Entries α
  | [] => [(key, value)]
  | (k, v) :: rest => if k = key then (key, value) :: rest else (k, v) :: set key value rest

/-- The pairs with repeated keys merged: the first place of a key with its last value. -/
def merge (pairs : Entries α) : Entries α :=
  pairs.foldl (fun entries pair ↦ set pair.1 pair.2 entries) []

@[simp] theorem keys_nil : keys ([] : Entries α) = [] := rfl

@[simp] theorem keys_cons (pair : String × α) (rest : Entries α) :
    keys (pair :: rest) = pair.1 :: keys rest := rfl

theorem keys_append (first second : Entries α) :
    keys (first ++ second) = keys first ++ keys second :=
  List.map_append

/-! ### Setting a key -/

/-- Setting a key adds it to the keys, and no key is lost. -/
theorem mem_keys_set {key k : String} {value : α} {entries : Entries α} :
    k ∈ keys (set key value entries) ↔ k = key ∨ k ∈ keys entries := by
  induction entries with
  | nil => simp [set]
  | cons pair rest ih =>
    obtain ⟨k', v'⟩ := pair
    by_cases h : k' = key
    · simp [set, h]
    · simp only [set, h, if_false, keys_cons, List.mem_cons, ih]
      constructor <;> rintro (h | h | h) <;> simp [h]

/-- Distinct keys stay distinct when one of them, or a new one, is set. -/
theorem nodup_keys_set {key : String} {value : α} {entries : Entries α}
    (h : (keys entries).Nodup) : (keys (set key value entries)).Nodup := by
  induction entries with
  | nil => simp [set]
  | cons pair rest ih =>
    obtain ⟨k', v'⟩ := pair
    have hrest := (List.nodup_cons.1 h).2
    have hnew := (List.nodup_cons.1 h).1
    by_cases hk : k' = key
    · subst hk
      simpa [set] using h
    · simp only [set, hk, if_false, keys_cons]
      refine List.nodup_cons.2 ⟨fun hmem ↦ ?_, ih hrest⟩
      rcases mem_keys_set.1 hmem with heq | hin
      · exact hk heq
      · exact hnew hin

theorem lookup_set_self (key : String) (value : α) (entries : Entries α) :
    (set key value entries).lookup key = some value := by
  induction entries with
  | nil => simp [set]
  | cons pair rest ih =>
    obtain ⟨k', v'⟩ := pair
    by_cases h : k' = key
    · simp [set, h]
    · have h' : (key == k') = false := by simpa using Ne.symm h
      simp [set, h, List.lookup_cons, h', ih]

theorem lookup_set_of_ne {key k : String} (hne : k ≠ key) (value : α) (entries : Entries α) :
    (set key value entries).lookup k = entries.lookup k := by
  induction entries with
  | nil =>
    have h' : (k == key) = false := by simpa using hne
    simp [set, List.lookup_cons, h']
  | cons pair rest ih =>
    obtain ⟨k', v'⟩ := pair
    by_cases h : k' = key
    · subst h
      have h' : (k == k') = false := by simpa using hne
      simp [set, List.lookup_cons, h']
    · simp [set, h, List.lookup_cons, ih]

/-- A new key goes to the end. -/
theorem set_of_not_mem {key : String} {value : α} {entries : Entries α} (h : key ∉ keys entries) :
    set key value entries = entries ++ [(key, value)] := by
  induction entries with
  | nil => rfl
  | cons pair rest ih =>
    obtain ⟨hne, hrest⟩ := not_or.1 (mt List.mem_cons.2 h)
    rw [set, if_neg (Ne.symm hne), ih hrest, List.cons_append]

/-- A key that is there keeps its place. -/
theorem set_append_cons {key : String} {old value : α} {before after : Entries α}
    (h : key ∉ keys before) :
    set key value (before ++ (key, old) :: after) = before ++ (key, value) :: after := by
  induction before with
  | nil => exact if_pos rfl
  | cons pair rest ih =>
    obtain ⟨hne, hrest⟩ := not_or.1 (mt List.mem_cons.2 h)
    rw [List.cons_append, set, if_neg (Ne.symm hne), ih hrest, List.cons_append]

/-! ### Looking up a key -/

theorem mem_of_lookup {key : String} {value : α} {entries : Entries α}
    (h : entries.lookup key = some value) : (key, value) ∈ entries := by
  obtain ⟨before, after, rfl, -⟩ := List.lookup_eq_some_iff.1 h
  simp

/-- Nothing is found under the names that are not keys, and only under these. -/
theorem lookup_eq_none_iff {key : String} {entries : Entries α} :
    entries.lookup key = none ↔ key ∉ keys entries := by
  simp only [List.lookup_eq_none_iff, bne_iff_ne, keys, List.mem_map, not_exists, not_and]
  exact forall₂_congr fun _ _ ↦ ne_comm

/-- When keys are distinct, a key is found with any value it has. -/
theorem lookup_of_mem {key : String} {value : α} {entries : Entries α}
    (hkeys : (keys entries).Nodup) (h : (key, value) ∈ entries) :
    entries.lookup key = some value := by
  induction entries with
  | nil => cases h
  | cons pair rest ih =>
    obtain ⟨k, v⟩ := pair
    obtain ⟨hnew, hrest⟩ := List.nodup_cons.1 hkeys
    rcases List.mem_cons.1 h with heq | hmem
    · cases heq
      exact List.lookup_cons_self
    · have hne : key ≠ k := fun heq ↦ hnew (List.mem_map.2 ⟨_, hmem, heq⟩)
      rw [List.lookup_cons, beq_false_of_ne hne]
      exact ih hrest hmem

/-- When keys are distinct, each entry is the one that is found under its key. -/
theorem lookup_eq_some_iff {key : String} {value : α} {entries : Entries α}
    (hkeys : (keys entries).Nodup) : entries.lookup key = some value ↔ (key, value) ∈ entries :=
  ⟨mem_of_lookup, lookup_of_mem hkeys⟩

/-- A value that is changed along with its key is found changed. -/
theorem lookup_map (f : String → α → β) (key : String) (entries : Entries α) :
    (entries.map fun pair ↦ (pair.1, f pair.1 pair.2)).lookup key =
      (entries.lookup key).map (f key) := by
  induction entries with
  | nil => rfl
  | cons pair rest ih =>
    obtain ⟨k, v⟩ := pair
    by_cases hk : key = k
    · subst hk
      simp
    · have h : (key == k) = false := by simpa using hk
      simp [List.lookup_cons, h, ih]

/-! ### Merging repeated keys -/

/-- Setting pairs one after the other keeps the keys distinct. -/
theorem nodup_keys_foldl_set (pairs entries : Entries α) (h : (keys entries).Nodup) :
    (keys (pairs.foldl (fun acc pair ↦ set pair.1 pair.2 acc) entries)).Nodup := by
  induction pairs generalizing entries with
  | nil => exact h
  | cons pair rest ih => exact ih _ (nodup_keys_set h)

/-- Merging makes the keys distinct, whatever is repeated among the pairs. -/
theorem nodup_keys_merge (pairs : Entries α) : (keys (merge pairs)).Nodup :=
  nodup_keys_foldl_set pairs [] (by simp)

/-- A value of the entries after `set` is the new one or was there before. -/
theorem mem_set {key : String} {value : α} {entries : Entries α} {pair : String × α}
    (h : pair ∈ set key value entries) : pair = (key, value) ∨ pair ∈ entries := by
  induction entries with
  | nil => simpa [set] using h
  | cons first rest ih =>
    obtain ⟨k', v'⟩ := first
    by_cases hk : k' = key
    · simp only [set, hk, if_true, List.mem_cons] at h
      rcases h with h | h
      · exact .inl h
      · exact .inr (List.mem_cons_of_mem _ h)
    · simp only [set, hk, if_false, List.mem_cons] at h
      rcases h with h | h
      · exact .inr (h ▸ List.mem_cons_self)
      · exact (ih h).imp id (List.mem_cons_of_mem _)

/-- A pair of the merged entries is one of the pairs. -/
theorem mem_of_mem_merge {pairs : Entries α} {pair : String × α} (h : pair ∈ merge pairs) :
    pair ∈ pairs := by
  have key : ∀ (pairs entries : Entries α),
      pair ∈ pairs.foldl (fun acc p ↦ set p.1 p.2 acc) entries →
        pair ∈ pairs ∨ pair ∈ entries := by
    intro pairs
    induction pairs with
    | nil => intro entries h; exact .inr h
    | cons first rest ih =>
      intro entries h
      rcases ih _ h with h | h
      · exact .inl (List.mem_cons_of_mem _ h)
      · rcases mem_set h with h | h
        · exact .inl (h ▸ List.mem_cons_self)
        · exact .inr h
  rcases key pairs [] h with h | h
  · exact h
  · cases h

end Entries

end ActionTools
