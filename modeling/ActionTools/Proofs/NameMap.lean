import ActionTools.NameMap

/-!
# Maps filled from pairs

A map that is filled pair by pair forgets the order of the pairs and has their names
(`mem_names_ofList`). When no name is repeated it binds each name as the pairs do (`get?_ofList`),
so two fillings are the same map exactly when their pairs agree on every name
(`entries_ofList_eq_iff`), and the pairs of a map give that map again (`ofList_entries`).
-/

namespace ActionTools

namespace NameMap

variable {α : Type}

/-- Inserting pairs binds their names and leaves the others bound as they were. -/
theorem get?_foldl_insert (pairs : List (String × α)) (map : NameMap α)
    (hkeys : (Entries.keys pairs).Nodup) (name : String) :
    (pairs.foldl (fun map pair ↦ map.insert pair.1 pair.2) map).get? name =
      (pairs.lookup name).or (map.get? name) := by
  induction pairs generalizing map with
  | nil => rfl
  | cons pair rest ih =>
    obtain ⟨key, value⟩ := pair
    obtain ⟨hnew, hrest⟩ := List.nodup_cons.1 hkeys
    rw [List.foldl_cons, ih _ hrest, get?_insert]
    by_cases hname : name = key
    · have hnone : rest.lookup name = none := Entries.lookup_eq_none_iff.2 (hname ▸ hnew)
      rw [hnone, if_pos hname, hname, List.lookup_cons_self]
      rfl
    · rw [if_neg hname, List.lookup_cons, beq_false_of_ne hname]

/-- The names after several insertions are the old ones and the inserted ones. -/
theorem mem_names_foldl_insert {name : String} (pairs : List (String × α)) (map : NameMap α) :
    name ∈ (pairs.foldl (fun map pair ↦ map.insert pair.1 pair.2) map).names ↔
      name ∈ map.names ∨ name ∈ Entries.keys pairs := by
  induction pairs generalizing map with
  | nil => simp
  | cons pair rest ih =>
    rw [List.foldl_cons, ih, Entries.keys_cons, List.mem_cons, ← or_assoc]
    refine or_congr_left ?_
    rw [mem_names_iff, mem_names_iff, get?_insert]
    by_cases hname : name = pair.1 <;> simp [hname]

/-- The names of a filled map are those of the pairs, also when some are repeated. -/
theorem mem_names_ofList {name : String} (pairs : List (String × α)) :
    name ∈ (ofList pairs).names ↔ name ∈ Entries.keys pairs := by
  rw [ofList, mem_names_foldl_insert]
  exact or_iff_right List.not_mem_nil

/-- Filling a map with distinct names keeps what each is bound to. -/
theorem get?_ofList {pairs : List (String × α)} (hkeys : (Entries.keys pairs).Nodup)
    (name : String) : (ofList pairs).get? name = pairs.lookup name := by
  rw [ofList, get?_foldl_insert pairs empty hkeys]
  exact Option.or_none

/-- Sorting gives the same pairs exactly when every name is bound alike. -/
theorem entries_ofList_eq_iff {first second : List (String × α)}
    (hfirst : (Entries.keys first).Nodup) (hsecond : (Entries.keys second).Nodup) :
    (ofList first).entries = (ofList second).entries ↔
      ∀ name, first.lookup name = second.lookup name := by
  constructor
  · intro h name
    rw [← get?_ofList hfirst, ← get?_ofList hsecond, get?, get?, h]
  · intro h
    have hmap : ofList first = ofList second :=
      ext_get? fun name ↦ by rw [get?_ofList hfirst, get?_ofList hsecond, h]
    rw [hmap]

/-- Filling a map with its own entries gives it again. -/
theorem ofList_entries (map : NameMap α) : ofList map.entries = map :=
  ext_get? fun name ↦ get?_ofList map.nodup_keys_entries name

end NameMap

end ActionTools
