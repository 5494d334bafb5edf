import ActionTools.Proofs.Substitution

/-!
# Substitutions at places that lie apart

Paths that are spelled differently may lead to one place, so what counts is where they lead
(`Json.place?`): to a member of a sequence by its index, to one of a mapping by its key. Two
substitutions at places that lie apart can be made in either order, and neither moves the place of
the other (`Tree.exists_substitute_both`). A list of substitutions that each could be made alone, at
places that lie apart, stays such a list when the first has been made
(`Tree.Compatible.after_first`). Hence all of them can be made, in any order, and the order does not
show in the result (`Tree.exists_substituteAll_of_perm`).
-/

namespace ActionTools

namespace Json

/-- The segment by which a value names the member that a segment addresses: its index in a sequence,
its key in a mapping. -/
def slot : Json → Segment → Segment
  | .array _, segment => (segment.index?.map .index).getD segment
  | _, segment => .key segment.text

/-- The place that a path leads to. -/
def place? (json : Json) : Path → Option Path
  | [] => some []
  | segment :: rest =>
    match json.child segment with
    | .ok member => (member.place? rest).map (json.slot segment :: ·)
    | .error _ => none

/-- The places that two paths lead to lie apart. -/
def LeadsApart (json : Json) (p q : Path) : Prop :=
  ∀ place ∈ json.place? p, ∀ place' ∈ json.place? q, place.Apart place'

instance (json : Json) (p q : Path) : Decidable (json.LeadsApart p q) :=
  inferInstanceAs <| Decidable <|
    ∀ place ∈ json.place? p, ∀ place' ∈ json.place? q, place.Apart place'

theorem LeadsApart.symm {json : Json} {p q : Path} (h : json.LeadsApart p q) :
    json.LeadsApart q p := fun place hq place' hp ↦ (h place' hp place hq).symm

theorem slot_around {frame : Frame} {segment : Segment} (h : segment.Addresses frame.slot)
    (member : Json) : (frame.around member).slot segment = frame.slot := by
  match frame, h with
  | .items before after, h => simp [Frame.around, slot, Frame.slot, Segment.index?_eq_some_iff.2 h]
  | .entries before key after, h => exact congrArg Segment.key h

/-- The place that a path leads to is that of its context. -/
theorem Leads.place?_eq {json part : Json} (hdistinct : json.Distinct) {path : Path}
    {context : Context} (h : json.Leads path context part) :
    json.place? path = some context.place := by
  induction path generalizing json context with
  | nil =>
    obtain ⟨rfl, -⟩ := leads_nil_iff.1 h
    rfl
  | cons segment rest ih =>
    obtain ⟨frame, inner, member, rfl, rfl, hsegment, hrest⟩ := leads_cons_iff.1 h
    rw [place?, child_around hdistinct hsegment]
    simp only [ih (Frame.distinct_of_around hdistinct) hrest, slot_around hsegment]
    rfl

end Json

namespace Tree

variable {tree first second next : Tree} {p q : Path} {value value' : Tree}
  {places order : List (Path × Tree)}

/-- **Two substitutions at places that lie apart** can be made in either order, and neither moves
the place of the other. -/
theorem exists_substitute_both (hfirst : tree.substitute p value = .ok first)
    (hsecond : tree.substitute q value' = .ok second) (hapart : tree.json.LeadsApart p q) :
    ∃ both, first.substitute q value' = .ok both ∧ second.substitute p value = .ok both ∧
      first.json.place? q = tree.json.place? q := by
  obtain ⟨context, part, filled, hp, hfilled, hjson⟩ := substitute_eq_ok_iff.1 hfirst
  obtain ⟨context', part', filled', hq, hfilled', hjson'⟩ := substitute_eq_ok_iff.1 hsecond
  have hplaces := hapart _ (hp.place?_eq tree.distinct) _ (hq.place?_eq tree.distinct)
  obtain ⟨other, other', hplace, hplace', heq, heq', hboth⟩ := Context.exists_around_apart
    (hp.1 ▸ tree.distinct) (hp.1.symm.trans hq.1) hplaces filled filled'
  -- Each path leads to the same part as before, in the context that the other substitution left.
  have hleads : first.json.Leads q other' part' := ⟨hjson.trans heq, hplace' ▸ hq.2⟩
  have hleads' : second.json.Leads p other part := ⟨hjson'.trans heq', hplace ▸ hp.2⟩
  obtain ⟨both, hresult, hresultJson⟩ := exists_substitute_of_leads hleads hfilled'
  refine ⟨both, hresult, substitute_eq_ok_iff.2 ⟨other, part, filled, hleads', hfilled, ?_⟩, ?_⟩
  · exact hresultJson.trans hboth.symm
  · rw [hleads.place?_eq first.distinct, hq.place?_eq tree.distinct, hplace']

/-! ### Lists of substitutions -/

/-- Each of the substitutions could be made alone, and their places lie apart. -/
structure Compatible (tree : Tree) (places : List (Path × Tree)) : Prop where
  accepted : ∀ place ∈ places, ∃ result, tree.substitute place.1 place.2 = .ok result
  apart : places.Pairwise fun first second ↦ tree.json.LeadsApart first.1 second.1

theorem Compatible.of_perm (h : tree.Compatible places) (hperm : places.Perm order) :
    tree.Compatible order where
  accepted := fun place hplace ↦ h.accepted place (hperm.mem_iff.2 hplace)
  apart := h.apart.perm hperm Json.LeadsApart.symm

/-- When the first substitution has been made, the others are as they were. -/
theorem Compatible.after_first (h : tree.Compatible ((p, value) :: places))
    (hnext : tree.substitute p value = .ok next) : next.Compatible places := by
  obtain ⟨hapart, hpairwise⟩ := List.pairwise_cons.1 h.apart
  have hboth : ∀ place ∈ places, (∃ both, next.substitute place.1 place.2 = .ok both) ∧
      next.json.place? place.1 = tree.json.place? place.1 := by
    intro place hplace
    obtain ⟨second, hsecond⟩ := h.accepted place (List.mem_cons_of_mem _ hplace)
    obtain ⟨both, hresult, -, hkept⟩ := exists_substitute_both hnext hsecond (hapart place hplace)
    exact ⟨⟨both, hresult⟩, hkept⟩
  refine ⟨fun place hplace ↦ (hboth place hplace).1, hpairwise.imp_of_mem ?_⟩
  intro first second hfirst hsecond hlies
  rwa [Json.LeadsApart, (hboth first hfirst).2, (hboth second hsecond).2]

/-- **Substitutions that lie apart can all be made**: after each of them the others are possible
still. -/
theorem Compatible.exists_substituteAll (h : tree.Compatible places) :
    ∃ result, tree.substituteAll places = .ok result := by
  induction places generalizing tree with
  | nil => exact ⟨tree, rfl⟩
  | cons place places ih =>
    obtain ⟨next, hnext⟩ := h.accepted place List.mem_cons_self
    obtain ⟨result, hresult⟩ := ih (h.after_first hnext)
    exact ⟨result, by rw [substituteAll, hnext]; exact hresult⟩

/-- **Substitutions that lie apart give the same in any order**, by induction on the permutation.
Two neighbours may be exchanged. -/
theorem Compatible.substituteAll_eq_of_perm (h : tree.Compatible places)
    (hperm : places.Perm order) : tree.substituteAll places = tree.substituteAll order := by
  induction hperm generalizing tree with
  | nil => rfl
  | cons place _ ih =>
    obtain ⟨next, hnext⟩ := h.accepted place List.mem_cons_self
    rw [substituteAll, substituteAll, hnext]
    exact ih (h.after_first hnext)
  | swap place place' places =>
    obtain ⟨first, hfirst⟩ := h.accepted place' List.mem_cons_self
    obtain ⟨second, hsecond⟩ := h.accepted place (List.mem_cons_of_mem _ List.mem_cons_self)
    obtain ⟨both, hboth, hboth', -⟩ := exists_substitute_both hfirst hsecond
      ((List.pairwise_cons.1 h.apart).1 place List.mem_cons_self)
    simp only [substituteAll, hfirst, hsecond, hboth, hboth']
  | trans hfirst _ ih ih' => exact (ih h).trans (ih' (h.of_perm hfirst))

/-- **The order of substitutions does not matter**, when each could be made alone and their places
lie apart: all of them can be made in every order, always with the same result. -/
theorem exists_substituteAll_of_perm
    (haccepted : ∀ place ∈ places, ∃ result, tree.substitute place.1 place.2 = .ok result)
    (hapart : places.Pairwise fun first second ↦ tree.json.LeadsApart first.1 second.1) :
    ∃ result, ∀ order : List (Path × Tree), order.Perm places →
      tree.substituteAll order = .ok result := by
  have hcompatible : tree.Compatible places := ⟨haccepted, hapart⟩
  obtain ⟨result, hresult⟩ := hcompatible.exists_substituteAll
  refine ⟨result, fun order hperm ↦ ?_⟩
  rw [← hcompatible.substituteAll_eq_of_perm hperm.symm, hresult]

/-- A reference and a sequence in one sequence, and an empty mapping under the key `0`. -/
def mixed : Tree where
  json := .object [
    ("list", .array [Json.reference "v", .array [.string "a"]]),
    ("note", .object [("0", .object [])])]
  distinct := by decide

/-- Places of `mixed`, the first two items of one sequence by a text and by an index. -/
def mixedPlaces : List (Path × Tree) :=
  [([.key "list", .key "00"], .string "x"), ([.key "list", .index 1], .string "y"),
    ([.key "note", .index 0], .string "z")]

/-- A name replaced, an item appended and a name added, from first to last or from last to first. -/
theorem exists_substituteAll_mixed :
    (∀ place ∈ mixedPlaces, ∃ result, mixed.substitute place.1 place.2 = .ok result) ∧
      mixedPlaces.Pairwise (fun first second ↦ mixed.json.LeadsApart first.1 second.1) ∧
      ∃ result, mixed.substituteAll mixedPlaces = .ok result ∧
        mixed.substituteAll mixedPlaces.reverse = .ok result ∧
        result.json = .object [
          ("list", .array [Json.reference "x", .array [.string "a", .string "y"]]),
          ("note", .object [("0", .object [(variableNameField, .string "z")])])] := by
  have haccepted : ∀ place ∈ mixedPlaces,
      ∃ result, mixed.substitute place.1 place.2 = .ok result := by
    simp only [mixedPlaces, List.forall_mem_cons]
    exact ⟨⟨_, rfl⟩, ⟨_, rfl⟩, ⟨_, rfl⟩, nofun⟩
  have hapart : mixedPlaces.Pairwise fun first second ↦
      mixed.json.LeadsApart first.1 second.1 := by decide
  obtain ⟨result, hresult⟩ := exists_substituteAll_of_perm haccepted hapart
  have hforward := hresult mixedPlaces (.refl _)
  refine ⟨haccepted, hapart, result, hforward, hresult _ (List.reverse_perm _), ?_⟩
  cases hforward
  rfl

end Tree

end ActionTools
