import ActionTools.Proofs.Reference
import Mathlib.Data.List.Forall2
import Mathlib.Data.Nat.Digits.Defs

/-!
# A part of a value and what is around it

A place splits a value in two, the part that stands there and all the rest. A `Frame` is a sequence
or a mapping with one member taken out, a `Context` is the frames around a part, and
`Context.around` puts a part in. To change a value at one place and nowhere else is to put another
part into the same context, so nothing has to be said about the rest.

A gap has a name, its index or its key (`Frame.slot`), and the names from the root on are the place
of the part (`Context.place`). A segment may address a gap under another spelling, the text `"01"`
the item with index 1. A path leads to a part when each of its segments addresses the gap on its
level (`Json.Leads`). In a value that repeats no key it leads to one part at most (`Leads.unique`).

Two places neither of which lies in the other do not interfere: what is put at one leaves the part
at the other where it is, and both can be filled in either order (`Context.exists_around_apart`).
-/

namespace ActionTools

/-! ### Segments and gaps -/

namespace Segment

/-- The number that a text of decimal digits stands for. -/
def decimalValue (text : String) : Nat :=
  Nat.ofDigits 10 (text.toList.reverse.map fun c ↦ c.toNat - '0'.toNat)

/-- The indices of a sequence that a segment stands for: an index for itself, and a text of one or
more digits for the number they spell, if no index is beyond it. -/
inductive Spells : Segment → Nat → Prop where
  | index (value : Nat) : Spells (.index value) value
  | digits {name : String} (hne : name ≠ "") (hdigits : ∀ c ∈ name.toList, c.isDigit = true)
      (hlimit : decimalValue name < indexLimit) : Spells (.key name) (decimalValue name)

/-- Whether a segment addresses the gap of the given name: a gap in a sequence by its index, one in
a mapping by its key, which is the text of the segment. -/
def Addresses (segment : Segment) : Segment → Prop
  | .index value => segment.Spells value
  | .key name => segment.text = name

/-- A text is a number when it consists of digits only, and there are any. -/
theorem decimal?_eq_some_iff {text : String} {value : Nat} :
    decimal? text = some value ↔
      text ≠ "" ∧ (∀ c ∈ text.toList, c.isDigit = true) ∧ decimalValue text = value := by
  have hvalue : NumberLiteral.ofDigits (text.toList.map fun c ↦ c.toNat - '0'.toNat) =
      decimalValue text := by
    rw [decimalValue, List.map_reverse, Nat.ofDigits_eq_foldr, List.foldr_reverse,
      NumberLiteral.ofDigits]
    congr 1
    funext value digit
    show value * 10 + digit = digit + 10 * value
    omega
  have hne : text ≠ "" ↔ text.toList ≠ [] := by simp
  rw [decimal?, hne, ← hvalue]
  split
  case h_1 hnil => simp [hnil]
  case h_2 hnil =>
    rw [Option.ite_none_right_eq_some, List.all_eq_true, Option.some.injEq]
    exact (and_iff_right hnil).symm

/-- A segment has an index if it is one or spells one. -/
theorem index?_eq_some_iff {segment : Segment} {index : Nat} :
    segment.index? = some index ↔ segment.Spells index := by
  cases segment with
  | index value =>
    refine ⟨fun h ↦ Option.some.inj h ▸ .index value, fun h ↦ ?_⟩
    cases h
    rfl
  | key name =>
    rw [index?, Option.bind_eq_some_iff]
    constructor
    · rintro ⟨value, hvalue, hindex⟩
      obtain ⟨hne, hdigits, rfl⟩ := decimal?_eq_some_iff.1 hvalue
      obtain ⟨hlimit, hindex⟩ := Option.ite_none_right_eq_some.1 hindex
      exact Option.some.inj hindex ▸ .digits hne hdigits hlimit
    · intro h
      cases h with
      | digits hne hdigits hlimit =>
        exact ⟨_, decimal?_eq_some_iff.2 ⟨hne, hdigits, rfl⟩, if_pos hlimit⟩

/-- A segment stands for one index at most. -/
theorem Spells.unique {segment : Segment} {i j : Nat} (h : segment.Spells i)
    (h' : segment.Spells j) : i = j :=
  Option.some.inj ((index?_eq_some_iff.2 h).symm.trans (index?_eq_some_iff.2 h'))

end Segment

/-! ### Frames -/

/-- A sequence or a mapping with one member taken out. -/
inductive Frame where
  /-- A sequence, by the items before the gap and those after it. -/
  | items (before after : List Json)
  /-- A mapping, by the key of the missing value and the entries before and after it. -/
  | entries (before : Entries Json) (key : String) (after : Entries Json)

/-- Two elements of a list stand in the same position, or one comes before the other. -/
theorem append_cons_cases {α : Type} {l r l' r' : List α} {x y : α}
    (h : l ++ x :: r = l' ++ y :: r') :
    (l = l' ∧ x = y ∧ r = r') ∨ (∃ m, l' = l ++ x :: m ∧ r = m ++ y :: r') ∨
      ∃ m, l = l' ++ y :: m ∧ r' = m ++ x :: r := by
  rcases List.append_eq_append_iff.1 h with ⟨m, rfl, hm⟩ | ⟨m, rfl, hm⟩
  · rcases List.cons_eq_append_iff.1 hm with ⟨rfl, hy⟩ | ⟨m, rfl, rfl⟩
    · cases hy
      exact .inl ⟨(List.append_nil _).symm, rfl, rfl⟩
    · exact .inr (.inl ⟨m, rfl, rfl⟩)
  · rcases List.cons_eq_append_iff.1 hm with ⟨rfl, hx⟩ | ⟨m, rfl, rfl⟩
    · cases hx
      exact .inl ⟨List.append_nil _, rfl, rfl⟩
    · exact .inr (.inr ⟨m, rfl, rfl⟩)

namespace Frame

/-- The value with a member in the gap. -/
def around : Frame → Json → Json
  | .items before after, member => .array (before ++ member :: after)
  | .entries before key after, member => .object (before ++ (key, member) :: after)

/-- The name of the gap. -/
def slot : Frame → Segment
  | .items before _ => .index before.length
  | .entries _ key _ => .key key

theorem distinct_of_around {frame : Frame} {member : Json} (h : (frame.around member).Distinct) :
    member.Distinct := by
  cases frame with
  | items before after => exact h.of_mem_items (by simp)
  | entries before key after =>
    have hmem : (key, member) ∈ before ++ (key, member) :: after := by simp
    exact h.of_mem_entries hmem

/-- No entry before the gap has its key. -/
theorem key_not_mem {before after : Entries Json} {key : String} {member : Json}
    (h : ((entries before key after).around member).Distinct) : key ∉ Entries.keys before := by
  have hnodup := (Json.distinct_object.1 h).1
  rw [Entries.keys_append] at hnodup
  exact fun hmem ↦ (List.nodup_append.1 hnodup).2.2 key hmem key List.mem_cons_self rfl

/-- A value without repeated keys has one gap of a name. -/
theorem eq_of_slot_eq {frame frame' : Frame} {member member' : Json}
    (hdistinct : (frame.around member).Distinct) (h : frame.around member = frame'.around member')
    (hslot : frame.slot = frame'.slot) : frame = frame' ∧ member = member' := by
  match frame, frame', h, hslot with
  | .items before after, .items before' after', h, hslot =>
    obtain ⟨rfl, htail⟩ := List.append_inj (Json.array.inj h) (Segment.index.inj hslot)
    obtain ⟨rfl, rfl⟩ := List.cons.inj htail
    exact ⟨rfl, rfl⟩
  | .entries before key after, .entries before' key' after', h, hslot =>
    obtain rfl := Segment.key.inj hslot
    rcases append_cons_cases (Json.object.inj h) with ⟨rfl, hentry, rfl⟩ | ⟨m, rfl, -⟩ | ⟨m, rfl, -⟩
    · exact ⟨rfl, (Prod.mk.inj hentry).2⟩
    · rw [h] at hdistinct
      exact absurd (by simp [Entries.keys_append]) (key_not_mem hdistinct)
    · exact absurd (by simp [Entries.keys_append]) (key_not_mem hdistinct)

/-- **Gaps of different names do not interfere.** -/
theorem exists_around_of_slot_ne {frame frame' : Frame} {member member' : Json}
    (h : frame.around member = frame'.around member') (hslot : frame.slot ≠ frame'.slot)
    (new new' : Json) :
    ∃ other other' : Frame, other.slot = frame.slot ∧ other'.slot = frame'.slot ∧
      frame.around new = other'.around member' ∧ frame'.around new' = other.around member ∧
      other.around new = other'.around new' := by
  -- Both gaps are in one list, and one of them comes first.
  match frame, frame', h, hslot with
  | .items before after, .items before' after', h, hslot =>
    rcases append_cons_cases (Json.array.inj h) with ⟨rfl, -, -⟩ | ⟨m, rfl, rfl⟩ | ⟨m, rfl, rfl⟩
    · exact absurd rfl hslot
    · exact ⟨.items before (m ++ new' :: after'), .items (before ++ new :: m) after',
        by simp [slot, around]⟩
    · exact ⟨.items (before' ++ new' :: m) after, .items before' (m ++ new :: after),
        by simp [slot, around]⟩
  | .entries before key after, .entries before' key' after', h, hslot =>
    rcases append_cons_cases (Json.object.inj h) with
      ⟨rfl, hentry, -⟩ | ⟨m, rfl, rfl⟩ | ⟨m, rfl, rfl⟩
    · exact absurd (congrArg Segment.key (Prod.mk.inj hentry).1) hslot
    · exact ⟨.entries before key (m ++ (key', new') :: after'),
        .entries (before ++ (key, new) :: m) key' after', by simp [slot, around]⟩
    · exact ⟨.entries (before' ++ (key', new') :: m) key after,
        .entries before' key' (m ++ (key, new) :: after), by simp [slot, around]⟩

end Frame

/-! ### Contexts -/

/-- The frames around a part of a value, the outermost first. -/
abbrev Context := List Frame

namespace Context

/-- The value with a part in its place. -/
def around (context : Context) (part : Json) : Json := context.foldr Frame.around part

/-- Where the part is: the names of the gaps, from the root on. -/
def place (context : Context) : Path := context.map Frame.slot

/-- **Parts at places that lie apart can be exchanged in either order.** -/
theorem exists_around_apart {first second : Context} {part part' : Json}
    (hdistinct : (first.around part).Distinct) (h : first.around part = second.around part')
    (hapart : first.place.Apart second.place) (new new' : Json) :
    ∃ other other' : Context, other.place = first.place ∧ other'.place = second.place ∧
      first.around new = other'.around part' ∧ second.around new' = other.around part ∧
      other.around new = other'.around new' := by
  induction first generalizing second with
  | nil => exact absurd List.nil_prefix hapart.1
  | cons frame first ih =>
    cases second with
    | nil => exact absurd List.nil_prefix hapart.2
    | cons frame' second =>
      by_cases hslot : frame.slot = frame'.slot
      · -- The two places part further down.
        obtain ⟨rfl, hmember⟩ := Frame.eq_of_slot_eq hdistinct h hslot
        obtain ⟨other, other', hplace, hplace', hfirst, hsecond, hboth⟩ :=
          ih (Frame.distinct_of_around hdistinct) hmember hapart.of_cons
        refine ⟨frame :: other, frame :: other', ?_, ?_, ?_, ?_, ?_⟩
        · exact congrArg (frame.slot :: ·) hplace
        · exact congrArg (frame.slot :: ·) hplace'
        · exact congrArg frame.around hfirst
        · exact congrArg frame.around hsecond
        · exact congrArg frame.around hboth
      · obtain ⟨other, other', hslots, hslots', hfirst, hsecond, hboth⟩ :=
          Frame.exists_around_of_slot_ne h hslot (around first new) (around second new')
        refine ⟨other :: first, other' :: second, ?_, ?_, hfirst, hsecond, hboth⟩
        · exact congrArg (· :: place first) hslots
        · exact congrArg (· :: place second) hslots'

end Context

/-! ### Following a path -/

namespace Json

/-- A path leads from a value to a part of it, by addressing the gaps of its context in turn. -/
def Leads (json : Json) (path : Path) (context : Context) (part : Json) : Prop :=
  json = context.around part ∧ List.Forall₂ Segment.Addresses path context.place

theorem leads_nil_iff {json part : Json} {context : Context} :
    json.Leads [] context part ↔ context = [] ∧ json = part := by
  constructor
  · rintro ⟨rfl, haddresses⟩
    obtain rfl := List.map_eq_nil_iff.1 (List.forall₂_nil_left_iff.1 haddresses)
    exact ⟨rfl, rfl⟩
  · rintro ⟨rfl, rfl⟩
    exact ⟨rfl, .nil⟩

/-- A path leads on from the member that its first segment addresses. -/
theorem leads_cons_iff {json part : Json} {segment : Segment} {rest : Path} {context : Context} :
    json.Leads (segment :: rest) context part ↔
      ∃ frame inner member, context = frame :: inner ∧ json = frame.around member ∧
        segment.Addresses frame.slot ∧ member.Leads rest inner part := by
  constructor
  · rintro ⟨rfl, haddresses⟩
    obtain ⟨slot, slots, hsegment, hrest, hplace⟩ := List.forall₂_cons_left_iff.1 haddresses
    obtain ⟨frame, inner, rfl, rfl, rfl⟩ := List.map_eq_cons_iff.1 hplace
    exact ⟨frame, inner, Context.around inner part, rfl, rfl, hsegment, rfl, hrest⟩
  · rintro ⟨frame, inner, member, rfl, rfl, hsegment, rfl, hrest⟩
    exact ⟨rfl, .cons hsegment hrest⟩

theorem Leads.cons {frame : Frame} {member part : Json} {segment : Segment} {rest : Path}
    {inner : Context} (hsegment : segment.Addresses frame.slot)
    (hrest : member.Leads rest inner part) :
    (frame.around member).Leads (segment :: rest) (frame :: inner) part :=
  leads_cons_iff.2 ⟨frame, inner, member, rfl, rfl, hsegment, hrest⟩

/-- A segment addresses one gap of a value. -/
theorem eq_of_addresses {frame frame' : Frame} {member member' : Json} {segment : Segment}
    (hdistinct : (frame.around member).Distinct) (h : frame.around member = frame'.around member')
    (hsegment : segment.Addresses frame.slot) (hsegment' : segment.Addresses frame'.slot) :
    frame = frame' ∧ member = member' := by
  refine Frame.eq_of_slot_eq hdistinct h ?_
  match frame, frame', h with
  | .items _ _, .items _ _, _ => exact congrArg Segment.index (hsegment.unique hsegment')
  | .entries _ _ _, .entries _ _ _, _ => exact congrArg Segment.key (hsegment.symm.trans hsegment')

/-- **A path leads to one part.** -/
theorem Leads.unique {json part part' : Json} {path : Path} {context context' : Context}
    (hdistinct : json.Distinct) (h : json.Leads path context part)
    (h' : json.Leads path context' part') : context = context' ∧ part = part' := by
  induction path generalizing json context context' with
  | nil =>
    obtain ⟨rfl, rfl⟩ := leads_nil_iff.1 h
    obtain ⟨rfl, rfl⟩ := leads_nil_iff.1 h'
    exact ⟨rfl, rfl⟩
  | cons segment rest ih =>
    obtain ⟨frame, inner, member, rfl, rfl, hsegment, hrest⟩ := leads_cons_iff.1 h
    obtain ⟨frame', inner', member', rfl, hjson, hsegment', hrest'⟩ := leads_cons_iff.1 h'
    obtain ⟨rfl, rfl⟩ := eq_of_addresses hdistinct hjson hsegment hsegment'
    obtain ⟨rfl, rfl⟩ := ih (Frame.distinct_of_around hdistinct) hrest hrest'
    exact ⟨rfl, rfl⟩

end Json

end ActionTools
