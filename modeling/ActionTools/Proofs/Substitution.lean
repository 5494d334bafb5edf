import ActionTools.Proofs.Context
import ActionTools.Substitution

/-!
# What a substitution does, and where it stops

A substitution follows its path as far as the segments address members. When all of them do and the
last one reached is a sequence or a mapping, that is filled, in the context it stands in; so nothing
else changes (`Json.substituteFrom_eq_ok_iff`). Otherwise it stops at the first segment that
addresses nothing, or at the end of the path when a scalar stands there, and the failure names the
path up to that point (`Json.substituteFrom_eq_error_iff`). What has been walked is only carried
along for this name, so both statements are made for any walk.
-/

namespace ActionTools

namespace Json

/-- Neither a sequence nor a mapping. -/
def IsScalar : Json → Prop
  | .array _ => False
  | .object _ => False
  | _ => True

/-- What filling makes of a value: a sequence has `value` at its end, a mapping has it as the name
of its variable, in the place of the old name or at the end. -/
inductive Filled (value : Json) : Json → Json → Prop where
  | appended (items : List Json) : Filled value (.array items) (.array (items ++ [value]))
  | renamed {before : Entries Json} (h : variableNameField ∉ Entries.keys before) (old : Json)
      (after : Entries Json) :
      Filled value (.object (before ++ (variableNameField, old) :: after))
        (.object (before ++ (variableNameField, value) :: after))
  | named {entries : Entries Json} (h : variableNameField ∉ Entries.keys entries) :
      Filled value (.object entries) (.object (entries ++ [(variableNameField, value)]))

/-- Why a segment addresses no member of a value. -/
inductive Refuses : Json → Segment → String → Prop where
  | notAnIndex {items : List Json} {segment : Segment} (h : ∀ index, ¬ segment.Spells index) :
      Refuses (.array items) segment "not a sequence index"
  | outOfRange {items : List Json} {segment : Segment} {index : Nat} (h : segment.Spells index)
      (hlength : items.length ≤ index) :
      Refuses (.array items) segment s!"index out of range (length {items.length})"
  | missingKey {entries : Entries Json} {segment : Segment}
      (h : segment.text ∉ Entries.keys entries) : Refuses (.object entries) segment "missing key"
  | scalar {json : Json} {segment : Segment} (h : json.IsScalar) :
      Refuses json segment "cannot descend into a scalar"

/-- How far a path can be followed when there is nothing to fill at its end, and why not further. -/
inductive Stops : Json → Path → Path → String → Prop where
  | refused {json : Json} {segment : Segment} {rest : Path} {reason : String}
      (h : json.Refuses segment reason) : Stops json (segment :: rest) [segment] reason
  | scalar {json : Json} (h : json.IsScalar) :
      Stops json [] [] "target is neither a sequence nor a reference"
  | further {frame : Frame} {member : Json} {segment : Segment} {rest place : Path}
      {reason : String} (hsegment : segment.Addresses frame.slot)
      (h : member.Stops rest place reason) :
      Stops (frame.around member) (segment :: rest) (segment :: place) reason

/-- A path resolves when all its segments address members in turn. -/
def Resolves (json : Json) (path : Path) : Prop := ∃ context part, json.Leads path context part

/-! ### Filling -/

/-- Filling does what `Filled` describes and nothing else. -/
theorem fill?_eq_some_iff {json value filled : Json} :
    json.fill? value = some filled ↔ Filled value json filled := by
  constructor
  · intro h
    cases json with
    | array items => exact Option.some.inj h ▸ .appended items
    | object entries =>
      obtain rfl := Option.some.inj h
      by_cases hmem : variableNameField ∈ Entries.keys entries
      · obtain ⟨old, hold⟩ := Option.ne_none_iff_exists'.1
          (mt Entries.lookup_eq_none_iff.1 (not_not_intro hmem))
        obtain ⟨before, after, rfl, hbefore⟩ := List.lookup_eq_some_iff.1 hold
        have hfresh : variableNameField ∉ Entries.keys before := fun hin ↦ by
          obtain ⟨entry, hentry, hkey⟩ := List.mem_map.1 hin
          exact bne_iff_ne.1 (hbefore entry hentry) hkey.symm
        rw [Entries.set_append_cons hfresh]
        exact .renamed hfresh old after
      · rw [Entries.set_of_not_mem hmem]
        exact .named hmem
    | _ => cases h
  · intro h
    cases h with
    | appended items => rfl
    | renamed h old after => rw [fill?, Entries.set_append_cons h]
    | named h => rw [fill?, Entries.set_of_not_mem h]

/-- Scalars are what cannot be filled. -/
theorem fill?_eq_none_iff {json value : Json} : json.fill? value = none ↔ json.IsScalar := by
  cases json <;> simp [fill?, IsScalar]

/-- A sequence or a mapping can be filled with any value. -/
theorem exists_filled {json : Json} (h : ¬ json.IsScalar) (value : Json) :
    ∃ filled, Filled value json filled := by
  obtain ⟨filled, hfilled⟩ := Option.ne_none_iff_exists'.1 (mt fill?_eq_none_iff.1 h)
  exact ⟨filled, fill?_eq_some_iff.1 hfilled⟩

/-! ### One step along a path -/

/-- A segment that addresses a gap leads to the member in it. -/
theorem child_around {frame : Frame} {member : Json} (hdistinct : (frame.around member).Distinct)
    {segment : Segment} (h : segment.Addresses frame.slot) :
    (frame.around member).child segment = .ok member := by
  match frame, h with
  | .items before after, h =>
    have hindex : segment.index? = some before.length := Segment.index?_eq_some_iff.2 h
    simp [Frame.around, child, hindex]
  | .entries before key after, h =>
    have htext : segment.text = key := h
    have hlookup : (before ++ (key, member) :: after).lookup key = some member :=
      Entries.lookup_of_mem (distinct_object.1 hdistinct).1 (by simp)
    simp [Frame.around, child, htext, hlookup]

/-- A segment that addresses a gap lets the member in it be replaced, and nothing else. -/
theorem setChild_around {frame : Frame} {member : Json}
    (hdistinct : (frame.around member).Distinct) {segment : Segment}
    (h : segment.Addresses frame.slot) (new : Json) :
    (frame.around member).setChild segment new = frame.around new := by
  match frame, h with
  | .items before after, h =>
    have hindex : segment.index? = some before.length := Segment.index?_eq_some_iff.2 h
    simp [Frame.around, setChild, hindex]
  | .entries before key after, h =>
    have htext : segment.text = key := h
    rw [Frame.around, setChild, htext, Entries.set_append_cons (Frame.key_not_mem hdistinct)]
    rfl

/-- A member that a segment addresses leaves a gap that the segment addresses. -/
theorem exists_frame_of_child {json member : Json} {segment : Segment}
    (h : json.child segment = .ok member) :
    ∃ frame : Frame, json = frame.around member ∧ segment.Addresses frame.slot := by
  cases json with
  | array items =>
    simp only [child] at h
    split at h
    · cases h
    rename_i index hindex
    split at h
    · cases h
    rename_i item hitem
    cases h
    obtain ⟨hlength, rfl⟩ := List.getElem?_eq_some_iff.1 hitem
    refine ⟨.items (items.take index) (items.drop (index + 1)), ?_, ?_⟩
    · rw [Frame.around, ← List.drop_eq_getElem_cons hlength, List.take_append_drop]
    · show segment.Spells (items.take index).length
      rw [List.length_take_of_le hlength.le]
      exact Segment.index?_eq_some_iff.1 hindex
  | object entries =>
    simp only [child] at h
    split at h
    · cases h
    rename_i value hvalue
    cases h
    obtain ⟨before, after, rfl, -⟩ := List.lookup_eq_some_iff.1 hvalue
    exact ⟨.entries before segment.text after, rfl, rfl⟩
  | _ => cases h

/-- **A segment fails exactly for the reasons listed.** There is one for each kind of value, and two
for a sequence: the segment spells no index, or the index is past the end. -/
theorem child_eq_error_iff {json : Json} {segment : Segment} {reason : String} :
    json.child segment = .error reason ↔ json.Refuses segment reason := by
  constructor
  · intro h
    cases json with
    | array items =>
      simp only [child] at h
      split at h
      · rename_i hnone
        cases h
        refine .notAnIndex fun index hindex ↦ ?_
        cases hnone.symm.trans (Segment.index?_eq_some_iff.2 hindex)
      rename_i index hindex
      split at h
      · rename_i hitem
        cases h
        exact .outOfRange (Segment.index?_eq_some_iff.1 hindex) (List.getElem?_eq_none_iff.1 hitem)
      · cases h
    | object entries =>
      simp only [child] at h
      split at h
      · rename_i hvalue
        cases h
        exact .missingKey (Entries.lookup_eq_none_iff.1 hvalue)
      · cases h
    | _ => exact Except.error.inj h ▸ .scalar trivial
  · intro h
    cases h with
    | notAnIndex h =>
      have hnone : segment.index? = none := Option.eq_none_iff_forall_ne_some.2 fun index hindex ↦
        h index (Segment.index?_eq_some_iff.1 hindex)
      rw [child, hnone]
    | outOfRange h hlength =>
      rw [child, Segment.index?_eq_some_iff.2 h]
      simp only [List.getElem?_eq_none hlength]
    | missingKey h => rw [child, Entries.lookup_eq_none_iff.2 h]
    | scalar h => cases json <;> first | rfl | cases h

/-- A segment addresses a member, or there is a reason why it does not. -/
theorem exists_frame_or_refuses (json : Json) (segment : Segment) :
    (∃ (frame : Frame) (member : Json), json = frame.around member ∧
      segment.Addresses frame.slot) ∨ ∃ reason, json.Refuses segment reason := by
  cases hchild : json.child segment with
  | ok member =>
    obtain ⟨frame, hjson, hsegment⟩ := exists_frame_of_child hchild
    exact .inl ⟨frame, member, hjson, hsegment⟩
  | error reason => exact .inr ⟨reason, child_eq_error_iff.1 hchild⟩

/-- What is substituted in a member is put back into the gap. -/
theorem substituteFrom_around {frame : Frame} {member : Json}
    (hdistinct : (frame.around member).Distinct) {segment : Segment}
    (h : segment.Addresses frame.slot) (walked rest : Path) (value : Json) :
    substituteFrom walked (frame.around member) (segment :: rest) value =
      (substituteFrom (walked ++ [segment]) member rest value).map frame.around := by
  rw [substituteFrom, child_around hdistinct h]
  simp only [setChild_around hdistinct h]
  cases substituteFrom (walked ++ [segment]) member rest value <;> rfl

/-! ### Whole paths -/

/-- A path leads to something that can be filled, or it stops. -/
theorem exists_leads_or_stops (json : Json) (path : Path) :
    (∃ context part, json.Leads path context part ∧ ¬ part.IsScalar) ∨
      ∃ place reason, json.Stops path place reason := by
  induction path generalizing json with
  | nil =>
    by_cases hscalar : json.IsScalar
    · exact .inr ⟨[], _, .scalar hscalar⟩
    · exact .inl ⟨[], json, leads_nil_iff.2 ⟨rfl, rfl⟩, hscalar⟩
  | cons segment rest ih =>
    rcases exists_frame_or_refuses json segment with
      ⟨frame, member, rfl, hsegment⟩ | ⟨reason, hrefuses⟩
    · rcases ih member with ⟨inner, part, hrest, hcontainer⟩ | ⟨place, reason, hrest⟩
      · exact .inl ⟨frame :: inner, part, .cons hsegment hrest, hcontainer⟩
      · exact .inr ⟨segment :: place, reason, .further hsegment hrest⟩
    · exact .inr ⟨[segment], reason, .refused hrefuses⟩

/-- A path that leads to something fillable has it filled in its context, by induction on how it
leads there. Each gap on the way is filled again with what comes back. -/
theorem substituteFrom_of_leads {json part value filled : Json} (hdistinct : json.Distinct)
    {path : Path} {context : Context} (h : json.Leads path context part)
    (hfilled : Filled value part filled) (walked : Path) :
    substituteFrom walked json path value = .ok (context.around filled) := by
  induction path generalizing json context walked with
  | nil =>
    obtain ⟨rfl, rfl⟩ := leads_nil_iff.1 h
    rw [substituteFrom, fill?_eq_some_iff.2 hfilled]
    rfl
  | cons segment rest ih =>
    obtain ⟨frame, inner, member, rfl, rfl, hsegment, hrest⟩ := leads_cons_iff.1 h
    rw [substituteFrom_around hdistinct hsegment, ih (Frame.distinct_of_around hdistinct) hrest]
    rfl

/-- A path that stops fails with the place and the reason, the walk so far put before the place. -/
theorem substituteFrom_of_stops {json : Json} (hdistinct : json.Distinct) {path place : Path}
    {reason : String} (h : json.Stops path place reason) (walked : Path) (value : Json) :
    substituteFrom walked json path value =
      .error (.templateIntegrity (Path.text (walked ++ place)) reason) := by
  induction h generalizing walked with
  | refused h => rw [substituteFrom, child_eq_error_iff.2 h]
  | scalar h => rw [substituteFrom, fill?_eq_none_iff.2 h, List.append_nil]
  | further hsegment _ ih =>
    rw [substituteFrom_around hdistinct hsegment, ih (Frame.distinct_of_around hdistinct),
      List.append_assoc, List.singleton_append]
    rfl

/-- **A substitution fills the part its path leads to, in its context.** -/
theorem substituteFrom_eq_ok_iff {json value result : Json} (hdistinct : json.Distinct)
    {walked path : Path} :
    substituteFrom walked json path value = .ok result ↔
      ∃ context part filled, json.Leads path context part ∧ Filled value part filled ∧
        result = context.around filled := by
  constructor
  · intro h
    rcases exists_leads_or_stops json path with
      ⟨context, part, hleads, hcontainer⟩ | ⟨place, reason, hstops⟩
    · obtain ⟨filled, hfilled⟩ := exists_filled hcontainer value
      refine ⟨context, part, filled, hleads, hfilled, ?_⟩
      exact Except.ok.inj (h.symm.trans (substituteFrom_of_leads hdistinct hleads hfilled walked))
    · cases h.symm.trans (substituteFrom_of_stops hdistinct hstops walked value)
  · rintro ⟨context, part, filled, hleads, hfilled, rfl⟩
    exact substituteFrom_of_leads hdistinct hleads hfilled walked

/-- **A substitution fails where its path stops.** -/
theorem substituteFrom_eq_error_iff {json value : Json} (hdistinct : json.Distinct)
    {walked path : Path} {failure : Failure} :
    substituteFrom walked json path value = .error failure ↔
      ∃ place reason, json.Stops path place reason ∧
        failure = .templateIntegrity (Path.text (walked ++ place)) reason := by
  constructor
  · intro h
    rcases exists_leads_or_stops json path with
      ⟨context, part, hleads, hcontainer⟩ | ⟨place, reason, hstops⟩
    · obtain ⟨filled, hfilled⟩ := exists_filled hcontainer value
      cases h.symm.trans (substituteFrom_of_leads hdistinct hleads hfilled walked)
    · refine ⟨place, reason, hstops, ?_⟩
      exact Except.error.inj (h.symm.trans (substituteFrom_of_stops hdistinct hstops walked value))
  · rintro ⟨place, reason, hstops, rfl⟩
    exact substituteFrom_of_stops hdistinct hstops walked value

/-! ### Where a path stops -/

/-- The shortest beginning of a path that does not resolve. -/
def FirstUnresolved (json : Json) (path place : Path) : Prop :=
  place <+: path ∧ ¬ json.Resolves place ∧ ∀ p, p <+: place → p ≠ place → json.Resolves p

theorem resolves_nil (json : Json) : json.Resolves [] := ⟨[], json, leads_nil_iff.2 ⟨rfl, rfl⟩⟩

/-- A path resolves when its first segment addresses a member and the rest resolves in that. -/
theorem resolves_cons_iff {frame : Frame} {member : Json}
    (hdistinct : (frame.around member).Distinct) {segment : Segment}
    (h : segment.Addresses frame.slot) {rest : Path} :
    (frame.around member).Resolves (segment :: rest) ↔ member.Resolves rest := by
  constructor
  · rintro ⟨context, part, hleads⟩
    obtain ⟨frame', inner, member', rfl, hjson, hsegment, hrest⟩ := leads_cons_iff.1 hleads
    obtain ⟨rfl, rfl⟩ := eq_of_addresses hdistinct hjson h hsegment
    exact ⟨inner, part, hrest⟩
  · rintro ⟨inner, part, hrest⟩
    exact ⟨frame :: inner, part, .cons h hrest⟩

/-- A segment that is refused does not resolve. -/
theorem not_resolves_of_refuses {json : Json} (hdistinct : json.Distinct) {segment : Segment}
    {reason : String} (h : json.Refuses segment reason) : ¬ json.Resolves [segment] := by
  rintro ⟨context, part, hleads⟩
  obtain ⟨frame, inner, member, rfl, rfl, hsegment, -⟩ := leads_cons_iff.1 hleads
  cases (child_around hdistinct hsegment).symm.trans (child_eq_error_iff.2 h)

/-- **A path stops where it first does not resolve**, or at its end before a scalar. -/
theorem Stops.firstUnresolved_or {json : Json} (hdistinct : json.Distinct) {path place : Path}
    {reason : String} (h : json.Stops path place reason) :
    json.FirstUnresolved path place ∨
      place = path ∧ ∃ context part, json.Leads path context part ∧ part.IsScalar := by
  induction h with
  | refused h =>
    refine .inl ⟨List.prefix_append _ _, not_resolves_of_refuses hdistinct h, ?_⟩
    intro p hbegin hne
    rcases List.prefix_cons_iff.1 hbegin with rfl | ⟨p, rfl, hnil⟩
    · exact resolves_nil _
    · exact absurd (congrArg _ (List.prefix_nil.1 hnil)) hne
  | scalar h => exact .inr ⟨rfl, [], _, leads_nil_iff.2 ⟨rfl, rfl⟩, h⟩
  | further hsegment _ ih =>
    rcases ih (Frame.distinct_of_around hdistinct) with
      ⟨hbegin, hunresolved, hshorter⟩ | ⟨rfl, context, part, hleads, hscalar⟩
    · refine .inl ⟨List.cons_prefix_cons.2 ⟨rfl, hbegin⟩, ?_, fun p hp hne ↦ ?_⟩
      · exact mt (resolves_cons_iff hdistinct hsegment).1 hunresolved
      · rcases List.prefix_cons_iff.1 hp with rfl | ⟨p, rfl, hrest⟩
        · exact resolves_nil _
        · exact (resolves_cons_iff hdistinct hsegment).2
            (hshorter p hrest fun heq ↦ hne (congrArg _ heq))
    · exact .inr ⟨rfl, _, part, .cons hsegment hleads, hscalar⟩

end Json

/-! ### On trees -/

namespace Tree

/-- Substitution gives a tree if it gives the value of this tree. -/
theorem json_substitute_eq_ok_iff {tree value result : Tree} {path : Path} :
    tree.json.substitute path value.json = .ok result.json ↔
      tree.substitute path value = .ok result := by
  rw [← map_json_substitute]
  cases tree.substitute path value with
  | error failure => exact ⟨nofun, nofun⟩
  | ok filled => simp only [Except.map, Except.ok.injEq, json_injective.eq_iff]

/-- Substitution fails on a tree as it fails on its value. -/
theorem json_substitute_eq_error_iff {tree value : Tree} {path : Path} {failure : Failure} :
    tree.json.substitute path value.json = .error failure ↔
      tree.substitute path value = .error failure := by
  rw [← map_json_substitute]
  cases tree.substitute path value with
  | error failure => simp only [Except.map, Except.error.injEq]
  | ok filled => exact ⟨nofun, nofun⟩

/-- Substitution succeeds where the path leads to something fillable, and fills that in its
context. -/
theorem substitute_eq_ok_iff {tree value result : Tree} {path : Path} :
    tree.substitute path value = .ok result ↔
      ∃ context part filled, tree.json.Leads path context part ∧
        Json.Filled value.json part filled ∧ result.json = context.around filled := by
  rw [← json_substitute_eq_ok_iff, Json.substitute, Json.substituteFrom_eq_ok_iff tree.distinct]

/-- Substitution fails where the path stops, and the failure names the place. -/
theorem substitute_eq_error_iff {tree value : Tree} {path : Path} {failure : Failure} :
    tree.substitute path value = .error failure ↔
      ∃ place reason, tree.json.Stops path place reason ∧
        failure = .templateIntegrity (Path.text place) reason := by
  rw [← json_substitute_eq_error_iff, Json.substitute,
    Json.substituteFrom_eq_error_iff tree.distinct]
  rfl

/-- A part that can be filled is filled in its context. -/
theorem exists_substitute_of_leads {tree value : Tree} {path : Path} {context : Context}
    {part filled : Json} (h : tree.json.Leads path context part)
    (hfilled : Json.Filled value.json part filled) :
    ∃ result, tree.substitute path value = .ok result ∧ result.json = context.around filled :=
  exists_substitute (Json.substituteFrom_of_leads tree.distinct h hfilled [])

/-- **What a substitution does.** It succeeds exactly when every segment of the path addresses a
member in turn and the last one reached is a sequence or a mapping. Then that is filled, and the
context it stands in is kept. Otherwise the failure names the shortest beginning of the path that
does not resolve, or all of it when only its end is a scalar. -/
theorem substitute_exact (tree : Tree) (path : Path) (value : Tree) :
    ((∃ result, tree.substitute path value = .ok result) ↔
      ∃ context part, tree.json.Leads path context part ∧ ¬ part.IsScalar) ∧
    (∀ result, tree.substitute path value = .ok result ↔
      ∃ context part filled, tree.json.Leads path context part ∧
        Json.Filled value.json part filled ∧ result.json = context.around filled) ∧
    (∀ failure, tree.substitute path value = .error failure ↔
      ∃ place reason, tree.json.Stops path place reason ∧
        failure = .templateIntegrity (Path.text place) reason) ∧
    ∀ place reason, tree.json.Stops path place reason →
      tree.json.FirstUnresolved path place ∨
        place = path ∧ ∃ context part, tree.json.Leads path context part ∧ part.IsScalar := by
  refine ⟨⟨?_, ?_⟩, fun _ ↦ substitute_eq_ok_iff, fun _ ↦ substitute_eq_error_iff,
    fun _ _ h ↦ h.firstUnresolved_or tree.distinct⟩
  · rintro ⟨result, hresult⟩
    obtain ⟨context, part, filled, hleads, hfilled, -⟩ := substitute_eq_ok_iff.1 hresult
    refine ⟨context, part, hleads, fun hscalar ↦ ?_⟩
    cases (Json.fill?_eq_some_iff.2 hfilled).symm.trans (Json.fill?_eq_none_iff.2 hscalar)
  · rintro ⟨context, part, hleads, hcontainer⟩
    obtain ⟨filled, hfilled⟩ := Json.exists_filled hcontainer value.json
    obtain ⟨result, hresult, -⟩ := exists_substitute_of_leads hleads hfilled
    exact ⟨result, hresult⟩

end Tree

end ActionTools
