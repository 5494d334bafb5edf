import ActionTools.Error
import ActionTools.Reference

/-!
# Filling places in a tree

`Json.fill?` puts a value into a node: a sequence gets it appended, a mapping gets it as the name of
its variable. `Json.substitute` does that at the end of a path and rebuilds what is on the way, each
node with one member replaced, so that everything beside the path, and the order of all keys, stays.

A segment addresses a member of a sequence when it spells an index in range, and a member of a
mapping when its text is a key. `Json.child` finds that member or says why there is none, and
`Json.setChild` puts another in its place. A failure names the path up to the segment that addresses
nothing, or all of it when only its end cannot be filled.
-/

namespace ActionTools

namespace Json

/-- The member that a segment addresses, or the reason why it addresses none. -/
def child : Json → Segment → Except String Json
  | .array items, segment =>
    match segment.index? with
    | none => .error "not a sequence index"
    | some index =>
      match items[index]? with
      | none => .error s!"index out of range (length {items.length})"
      | some item => .ok item
  | .object entries, segment =>
    match entries.lookup segment.text with
    | none => .error "missing key"
    | some value => .ok value
  | _, _ => .error "cannot descend into a scalar"

/-- The value with the member that a segment addresses replaced. -/
def setChild : Json → Segment → Json → Json
  | .array items, segment, new =>
    match segment.index? with
    | some index => .array (items.set index new)
    | none => .array items
  | .object entries, segment, new => .object (Entries.set segment.text new entries)
  | json, _, _ => json

/-- A sequence with `value` appended, or a mapping with `value` as the name of its variable. -/
def fill? : Json → Json → Option Json
  | .array items, value => some (.array (items ++ [value]))
  | .object entries, value => some (.object (Entries.set variableNameField value entries))
  | _, _ => none

/-- The value with the node at the end of `path` filled; `walked` leads to this value from the root
and only serves to name the place of a failure. -/
def substituteFrom (walked : Path) (json : Json) (path : Path) (value : Json) :
    Except Failure Json :=
  match path with
  | [] =>
    match json.fill? value with
    | some filled => .ok filled
    | none =>
      .error (.templateIntegrity (Path.text walked)
        "target is neither a sequence nor a reference")
  | segment :: rest =>
    match json.child segment with
    | .error reason => .error (.templateIntegrity (Path.text (walked ++ [segment])) reason)
    | .ok child =>
      match substituteFrom (walked ++ [segment]) child rest value with
      | .ok new => .ok (json.setChild segment new)
      | .error failure => .error failure

/-- The value with the node at `path` filled with `value`. -/
def substitute (json : Json) (path : Path) (value : Json) : Except Failure Json :=
  substituteFrom [] json path value

/-! ### Distinct keys are kept -/

/-- The member that a segment addresses is distinct. -/
theorem Distinct.child {json : Json} (h : json.Distinct) {segment : Segment} {new : Json}
    (hchild : json.child segment = .ok new) : new.Distinct := by
  cases json with
  | array items =>
    simp only [Json.child] at hchild
    split at hchild
    · cases hchild
    · split at hchild
      · cases hchild
      · rename_i hget
        cases hchild
        exact h.of_mem_items (List.mem_of_getElem? hget)
  | object entries =>
    simp only [Json.child] at hchild
    split at hchild
    · cases hchild
    · rename_i hlookup
      cases hchild
      obtain ⟨before, after, rfl, -⟩ := List.lookup_eq_some_iff.1 hlookup
      exact (Json.distinct_object.1 h).2 (segment.text, new) (by simp)
  | _ => cases hchild

/-- A distinct member can be put into a distinct value. -/
theorem Distinct.setChild {json : Json} (h : json.Distinct) (segment : Segment) {new : Json}
    (hnew : new.Distinct) : (json.setChild segment new).Distinct := by
  cases json with
  | array items =>
    simp only [Json.setChild]
    split
    · exact h.array_set _ hnew
    · exact h
  | object entries => exact h.object_set _ hnew
  | _ => exact h

/-- Filling appends an item or sets a key, and neither repeats a key. -/
theorem Distinct.fill? {json filled value : Json} (h : json.Distinct) (hvalue : value.Distinct)
    (hfill : json.fill? value = some filled) : filled.Distinct := by
  cases json with
  | array items => exact Option.some.inj hfill ▸ h.array_append hvalue
  | object entries => exact Option.some.inj hfill ▸ h.object_set _ hvalue
  | _ => cases hfill

/-- On the way back along the path, each member that is put in place is distinct. -/
theorem Distinct.substituteFrom {value : Json} (hvalue : value.Distinct) :
    ∀ {path walked : Path} {json result : Json}, json.Distinct →
      Json.substituteFrom walked json path value = .ok result → result.Distinct
  | [], walked, json, result, h, hsub => by
    simp only [Json.substituteFrom] at hsub
    split at hsub
    · rename_i hfill
      cases hsub
      exact h.fill? hvalue hfill
    · cases hsub
  | segment :: rest, walked, json, result, h, hsub => by
    simp only [Json.substituteFrom] at hsub
    split at hsub
    · cases hsub
    · rename_i hchild
      split at hsub
      · rename_i hrest
        cases hsub
        exact h.setChild segment (Distinct.substituteFrom hvalue (h.child hchild) hrest)
      · cases hsub

theorem Distinct.substitute {json value result : Json} {path : Path} (h : json.Distinct)
    (hvalue : value.Distinct) (hsub : json.substitute path value = .ok result) :
    result.Distinct :=
  Distinct.substituteFrom hvalue h hsub

end Json

/-! ### On trees -/

namespace Tree

/-- The tree with the node at `path` filled with `value`. -/
def substitute (tree : Tree) (path : Path) (value : Tree) : Except Failure Tree :=
  match h : tree.json.substitute path value.json with
  | .ok json => .ok ⟨json, tree.distinct.substitute value.distinct h⟩
  | .error failure => .error failure

/-- The tree with several places filled, one after the other. -/
def substituteAll (tree : Tree) : List (Path × Tree) → Except Failure Tree
  | [] => .ok tree
  | (path, value) :: rest =>
    match tree.substitute path value with
    | .ok filled => filled.substituteAll rest
    | .error failure => .error failure

/-- The places of the variable references in a tree. -/
def references (tree : Tree) : List Path := tree.json.references

/-- Substitution into a tree is substitution into its value, errors included. -/
theorem map_json_substitute (tree : Tree) (path : Path) (value : Tree) :
    (tree.substitute path value).map Tree.json = tree.json.substitute path value.json := by
  unfold substitute
  split <;> rename_i h <;> exact h.symm

/-- What substitution makes of the value of a tree is the value of a tree. -/
theorem exists_substitute {tree value : Tree} {path : Path} {json : Json}
    (h : tree.json.substitute path value.json = .ok json) :
    ∃ filled, tree.substitute path value = .ok filled ∧ filled.json = json := by
  have hmap := tree.map_json_substitute path value
  rw [h] at hmap
  cases hfilled : tree.substitute path value with
  | error failure => rw [hfilled] at hmap; cases hmap
  | ok filled =>
    rw [hfilled] at hmap
    exact ⟨filled, rfl, Except.ok.inj hmap⟩

end Tree

end ActionTools
