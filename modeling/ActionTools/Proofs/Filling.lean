import ActionTools.Proofs.Reference
import ActionTools.Substitution
import Mathlib.Logic.Function.Basic

/-!
# Filling many places at once

Substitutions are made one after the other, each in the tree that the earlier ones left, and what
they put in may be any value. `Json.fillWith` fills all places in one walk over the original tree
instead, and looks at nothing that has been put in. The two agree when each place is a mapping of
the original tree and no two places lie on one path from the root (`substituteAll_eq_fillWith`):
then what has been filled so far is filled along other paths, and every later place is still there.
-/

namespace ActionTools

namespace Json

mutual

/-- The value in which each mapping at a path with a value gets that as the name of its variable.
What is inside such a mapping stays. -/
def fillWith (value? : Path → Option Json) : Json → Json
  | .array items => .array (fillItemsWith value? 0 items)
  | .object entries =>
    match value? [] with
    | some value => .object (Entries.set variableNameField value entries)
    | none => .object (fillEntriesWith value? entries)
  | json => json

/-- The items of a sequence filled, the first having the given index. -/
def fillItemsWith (value? : Path → Option Json) (index : Nat) : List Json → List Json
  | [] => []
  | item :: rest =>
    item.fillWith (fun path ↦ value? (.index index :: path)) ::
      fillItemsWith value? (index + 1) rest

/-- The values of a mapping filled. -/
def fillEntriesWith (value? : Path → Option Json) : List (String × Json) → List (String × Json)
  | [] => []
  | (key, value) :: rest =>
    (key, value.fillWith fun path ↦ value? (.key key :: path)) :: fillEntriesWith value? rest

end

variable {value? value?' : Path → Option Json}

/-- A mapping stays one. -/
theorem exists_fillWith_object (entries : Entries Json) (value? : Path → Option Json) :
    ∃ filled, (object entries).fillWith value? = .object filled := by
  cases h : value? [] with
  | none => exact ⟨_, by rw [fillWith, h]⟩
  | some value => exact ⟨_, by rw [fillWith, h]⟩

/-! ### Members -/

theorem getElem?_fillItemsWith (items : List Json) (start index : Nat) :
    (fillItemsWith value? start items)[index]? =
      items[index]?.map (fillWith fun path ↦ value? (.index (start + index) :: path)) := by
  induction items generalizing start index with
  | nil => rfl
  | cons item rest ih =>
    cases index with
    | zero => rfl
    | succ index =>
      rw [fillItemsWith, List.getElem?_cons_succ, List.getElem?_cons_succ, ih,
        Nat.add_right_comm, Nat.add_assoc]

/-- Under a key the value is filled with what is given below that key. -/
theorem lookup_fillEntriesWith (entries : Entries Json) (key : String) :
    (fillEntriesWith value? entries).lookup key =
      (entries.lookup key).map (fillWith fun path ↦ value? (.key key :: path)) := by
  induction entries with
  | nil => rfl
  | cons entry rest ih =>
    obtain ⟨k, value⟩ := entry
    rw [fillEntriesWith, List.lookup_cons, List.lookup_cons]
    by_cases hk : key = k
    · subst hk
      simp
    · rw [beq_false_of_ne hk, ih]

/-- A member of a filled value is the member filled, unless the value itself has been filled. -/
theorem member?_fillWith (h : value? [] = none) (json : Json) (segment : Segment) :
    (json.fillWith value?).member? segment =
      (json.member? segment).map (fillWith fun path ↦ value? (segment :: path)) := by
  cases json <;> cases segment <;> try rfl
  case array.index items index =>
    rw [fillWith, member?, member?, getElem?_fillItemsWith, Nat.zero_add]
  case object.index entries index =>
    rw [fillWith, h]
    rfl
  case object.key entries key =>
    rw [fillWith, h]
    exact lookup_fillEntriesWith entries key

/-- What is at a path of a filled value, when nothing has been filled on the way. -/
theorem atPath?_fillWith {json : Json} {path : Path}
    (h : ∀ p q, p ++ q = path → q ≠ [] → value? p = none) :
    (json.fillWith value?).atPath? path =
      (json.atPath? path).map (fillWith fun rest ↦ value? (path ++ rest)) := by
  induction path generalizing json value? with
  | nil => rfl
  | cons segment path ih =>
    rw [atPath?, atPath?, member?_fillWith (h [] _ rfl (List.cons_ne_nil _ _)),
      Option.bind_map, Option.map_bind]
    refine congrArg _ (funext fun child ↦ ih fun p q hpath hne ↦ ?_)
    exact h (segment :: p) q (congrArg _ hpath) hne

/-- A mapping that gets a value has it as the name of its variable. -/
theorem atPath?_fillWith_of_value {json value : Json} {path : Path} {entries : Entries Json}
    (hat : json.atPath? path = some (.object entries)) (hvalue : value? path = some value)
    (h : ∀ p q, p ++ q = path → q ≠ [] → value? p = none) :
    (json.fillWith value?).atPath? path =
      some (.object (Entries.set variableNameField value entries)) := by
  have hroot : value? (path ++ []) = some value := by rw [List.append_nil, hvalue]
  rw [atPath?_fillWith h, hat, Option.map_some, fillWith, hroot]

/-! ### Values that make no difference -/

/-- Only what is given below the keys that are there matters. -/
theorem fillEntriesWith_congr {entries : Entries Json}
    (h : ∀ key ∈ Entries.keys entries, ∀ path,
      value? (.key key :: path) = value?' (.key key :: path)) :
    fillEntriesWith value? entries = fillEntriesWith value?' entries := by
  induction entries with
  | nil => rfl
  | cons entry rest ih =>
    obtain ⟨key, value⟩ := entry
    obtain ⟨hkey, hrest⟩ := List.forall_mem_cons.1 h
    rw [fillEntriesWith, fillEntriesWith, ih hrest, funext hkey]

theorem fillItemsWith_eq_self {items : List Json} {start : Nat}
    (h : ∀ item ∈ items, item.fillWith (fun _ ↦ none) = item) :
    fillItemsWith (fun _ ↦ none) start items = items := by
  induction items generalizing start with
  | nil => rfl
  | cons item rest ih =>
    obtain ⟨hitem, hrest⟩ := List.forall_mem_cons.1 h
    rw [fillItemsWith, hitem, ih hrest]

theorem fillEntriesWith_eq_self {entries : Entries Json}
    (h : ∀ entry ∈ entries, entry.2.fillWith (fun _ ↦ none) = entry.2) :
    fillEntriesWith (fun _ ↦ none) entries = entries := by
  induction entries with
  | nil => rfl
  | cons entry rest ih =>
    obtain ⟨key, value⟩ := entry
    obtain ⟨hvalue, hrest⟩ := List.forall_mem_cons.1 h
    rw [fillEntriesWith, hvalue, ih hrest]

/-- Without values nothing changes. -/
theorem fillWith_none (json : Json) : json.fillWith (fun _ ↦ none) = json := by
  induction json with
  | array items ih => rw [fillWith, fillItemsWith_eq_self ih]
  | object entries ih => rw [fillWith, fillEntriesWith_eq_self ih]
  | _ => rfl

/-! ### One more place -/

theorem child_of_member? {json new : Json} {segment : Segment}
    (h : json.member? segment = some new) : json.child segment = .ok new := by
  cases json <;> cases segment <;> first | cases h | skip
  case array.index items index =>
    change items[index]? = some new at h
    simp only [child, Segment.index?, h]
  case object.key entries key =>
    change entries.lookup key = some new at h
    simp only [child, Segment.text, h]

/-- To give a value below one key is to fill the value under that key once more. -/
theorem set_fillEntriesWith {entries : Entries Json} (hkeys : (Entries.keys entries).Nodup)
    {key : String} {member : Json} (hmember : entries.lookup key = some member)
    (hsame : ∀ k, k ≠ key → ∀ path, value? (.key k :: path) = value?' (.key k :: path)) :
    Entries.set key (member.fillWith fun path ↦ value?' (.key key :: path))
        (fillEntriesWith value? entries) = fillEntriesWith value?' entries := by
  induction entries with
  | nil => cases hmember
  | cons entry rest ih =>
    obtain ⟨k, value⟩ := entry
    obtain ⟨hnew, hrest⟩ := List.nodup_cons.1 hkeys
    rw [fillEntriesWith, fillEntriesWith, Entries.set]
    by_cases hk : k = key
    · -- The key does not come again among the other entries.
      subst hk
      obtain rfl : value = member := by simpa using hmember
      have hothers : fillEntriesWith value? rest = fillEntriesWith value?' rest :=
        fillEntriesWith_congr fun other hother ↦ hsame other fun heq ↦ hnew (heq ▸ hother)
      rw [if_pos rfl, hothers]
    · have hlookup : rest.lookup key = some member := by
        rwa [List.lookup_cons, beq_false_of_ne (Ne.symm hk)] at hmember
      rw [if_neg hk, ih hrest hlookup, funext (hsame k hk)]

/-- To give a value below one index is to fill the item at that index once more. -/
theorem set_fillItemsWith {items : List Json} {index : Nat} {member : Json}
    (hmember : items[index]? = some member)
    (hsame : ∀ i, i ≠ index → ∀ path, value? (.index i :: path) = value?' (.index i :: path)) :
    (fillItemsWith value? 0 items).set index
        (member.fillWith fun path ↦ value?' (.index index :: path)) =
      fillItemsWith value?' 0 items := by
  refine List.ext_getElem? fun i ↦ ?_
  rw [getElem?_fillItemsWith, Nat.zero_add]
  by_cases hi : index = i
  · subst hi
    rw [List.getElem?_set_self', getElem?_fillItemsWith, hmember]
    rfl
  · rw [List.getElem?_set_ne hi, getElem?_fillItemsWith, Nat.zero_add,
      funext (hsame i (Ne.symm hi))]

/-- To fill one more member is to put the filled member in its place. -/
theorem setChild_fillWith {json member : Json} (hdistinct : json.Distinct) {segment : Segment}
    (hmember : json.member? segment = some member) (hnone : value? [] = none)
    (hnone' : value?' [] = none)
    (hsame : ∀ other, other ≠ segment → ∀ path, value? (other :: path) = value?' (other :: path)) :
    (json.fillWith value?).setChild segment
        (member.fillWith fun path ↦ value?' (segment :: path)) = json.fillWith value?' := by
  cases json <;> cases segment <;> first | cases hmember | skip
  case array.index items index =>
    refine congrArg array (set_fillItemsWith hmember ?_)
    exact fun i hi ↦ hsame (.index i) fun heq ↦ hi (Segment.index.inj heq)
  case object.key entries key =>
    rw [fillWith, fillWith, hnone, hnone']
    refine congrArg object (set_fillEntriesWith (distinct_object.1 hdistinct).1 hmember ?_)
    exact fun k hk ↦ hsame (.key k) fun heq ↦ hk (Segment.key.inj heq)

/-- **To substitute at one more place is to fill one more place**, if the place is a mapping that
no other place leads to or through. -/
theorem substituteFrom_fillWith {json value : Json} (hdistinct : json.Distinct) {path : Path}
    (walked : Path) {entries : Entries Json} (hat : json.atPath? path = some (.object entries))
    (hapart : ∀ other, value? other ≠ none → path.Apart other) :
    substituteFrom walked (json.fillWith value?) path value =
      .ok (json.fillWith (Function.update value? path (some value))) := by
  induction path generalizing json walked value? with
  | nil =>
    cases hat
    -- The empty path is the beginning of every other, so nothing has been filled yet.
    have hnone : value? = fun _ ↦ none := by
      funext other
      by_contra hvalue
      exact (hapart other hvalue).1 List.nil_prefix
    rw [hnone, fillWith_none, substituteFrom, fill?, fillWith, Function.update_self]
  | cons segment path ih =>
    obtain ⟨member, hmember, hat⟩ := Option.bind_eq_some_iff.1 hat
    -- A filled root would lie on the way.
    have hroot : value? [] = none := by
      by_contra hvalue
      exact (hapart [] hvalue).2 List.nil_prefix
    have hchild : (json.fillWith value?).child segment =
        .ok (member.fillWith fun path ↦ value? (segment :: path)) := by
      refine child_of_member? ?_
      rw [member?_fillWith hroot, hmember, Option.map_some]
    have hrest := ih (hdistinct.member? hmember) (walked ++ [segment]) hat
      fun other hother ↦ (hapart (segment :: other) hother).of_cons
    have hupdate : Function.update (fun path ↦ value? (segment :: path)) path (some value) =
        fun rest ↦ Function.update value? (segment :: path) (some value) (segment :: rest) := by
      funext rest
      simp only [Function.update_apply, List.cons.injEq, true_and]
    rw [hupdate] at hrest
    rw [substituteFrom, hchild]
    simp only [hrest]
    congr 1
    refine setChild_fillWith hdistinct hmember hroot ?_ fun other hother rest ↦ ?_
    · rw [Function.update_of_ne (List.cons_ne_nil segment path).symm, hroot]
    · rw [Function.update_of_ne fun heq ↦ hother (List.cons.inj heq).1]

end Json

namespace Tree

/-! ### All places -/

/-- In a list of places that lie apart each is found with its value. -/
theorem lookup_eq_some_iff {places : List (Path × Tree)}
    (hpairwise : places.Pairwise fun first second ↦ Path.Apart first.1 second.1) {path : Path}
    {value : Tree} : places.lookup path = some value ↔ (path, value) ∈ places := by
  rw [List.lookup_eq_some_iff]
  constructor
  · rintro ⟨before, after, rfl, -⟩
    simp
  · intro hmem
    obtain ⟨before, after, rfl⟩ := List.append_of_mem hmem
    refine ⟨before, after, rfl, fun place hplace ↦ bne_iff_ne.2 ?_⟩
    exact ((List.pairwise_append.1 hpairwise).2.2 place hplace _ List.mem_cons_self).ne.symm

/-- The invariant of `substituteAll`: the places already filled are those with a value, and they lie
apart from the ones to come. -/
theorem exists_substituteAll {json : Json} (hdistinct : json.Distinct) {tree : Tree}
    {value? : Path → Option Json} (htree : tree.json = json.fillWith value?)
    {places : List (Path × Tree)}
    (hat : ∀ place ∈ places, ∃ entries, json.atPath? place.1 = some (.object entries))
    (hpairwise : places.Pairwise fun first second ↦ Path.Apart first.1 second.1)
    (hapart : ∀ place ∈ places, ∀ other, value? other ≠ none → Path.Apart place.1 other) :
    ∃ filled, tree.substituteAll places = .ok filled ∧
      filled.json = json.fillWith fun path ↦
        (places.lookup path).map Tree.json <|> value? path := by
  induction places generalizing tree value? with
  | nil => exact ⟨tree, rfl, htree⟩
  | cons place rest ih =>
    obtain ⟨path, value⟩ := place
    obtain ⟨⟨entries, hentries⟩, hat⟩ := List.forall_mem_cons.1 hat
    obtain ⟨hfirst, hpairwise⟩ := List.pairwise_cons.1 hpairwise
    obtain ⟨hplace, hapart⟩ := List.forall_mem_cons.1 hapart
    have hsubstitute : tree.json.substitute path value.json = _ :=
      htree ▸ Json.substituteFrom_fillWith hdistinct [] hentries hplace
    obtain ⟨next, hnext, hjson⟩ := exists_substitute hsubstitute
    have hapart' : ∀ place ∈ rest, ∀ other,
        Function.update value? path (some value.json) other ≠ none → Path.Apart place.1 other := by
      intro place hmem other hother
      by_cases heq : other = path
      · exact heq ▸ (hfirst place hmem).symm
      · rw [Function.update_of_ne heq] at hother
        exact hapart place hmem other hother
    obtain ⟨filled, hfilled, hresult⟩ := ih hjson hat hpairwise hapart'
    refine ⟨filled, by rw [substituteAll, hnext]; exact hfilled, ?_⟩
    rw [hresult]
    congr 1
    funext other
    rw [List.lookup_cons]
    by_cases heq : other = path
    · -- Nothing to come is at this path.
      subst heq
      have hnone : rest.lookup other = none := List.lookup_eq_none_iff.2 fun place hmem ↦
        bne_iff_ne.2 fun heq ↦ (hfirst place hmem).1 (heq ▸ List.prefix_refl _)
      simp [hnone]
    · simp [beq_false_of_ne heq, Function.update_of_ne heq]

/-- **Filling places that lie apart, one after the other, is filling all of them at once.** -/
theorem substituteAll_eq_fillWith {tree : Tree} {places : List (Path × Tree)}
    (hat : ∀ place ∈ places, ∃ entries, tree.json.atPath? place.1 = some (.object entries))
    (hpairwise : places.Pairwise fun first second ↦ Path.Apart first.1 second.1) :
    ∃ filled, tree.substituteAll places = .ok filled ∧
      filled.json = tree.json.fillWith fun path ↦ (places.lookup path).map Tree.json := by
  have hstart : tree.json = tree.json.fillWith fun _ ↦ none := (Json.fillWith_none tree.json).symm
  obtain ⟨filled, hfilled, hjson⟩ := exists_substituteAll tree.distinct hstart hat hpairwise
    fun _ _ _ hother ↦ absurd rfl hother
  simp only [Option.orElse_eq_orElse, Option.orElse_eq_or, Option.or_none] at hjson
  exact ⟨filled, hfilled, hjson⟩

end Tree

end ActionTools
