import ActionTools.Proofs.Json.Reader
import ActionTools.Proofs.Reference
import Mathlib.Tactic.Push

/-!
# How deep and how wide a text that is read can be

A sequence or mapping is readable with at most 127 others around it. So a value is read back from
its text exactly when it is not nested too deep: up to the limit the text is read as what the value
is written as (`reread_eq_document`), beyond it some part is not readable, and with it the whole has
no value (`json?_reread_eq_none`).

Conversely a document that was read keeps to the limit: around each of its sequences and mappings
there are at most 127 (`Document.Within`), and no sequence has more items than there was text to
read. Both pass on to the value of the document (`Within.depth_le`, `Within.width_le`).
-/

namespace ActionTools

open Document

namespace Json

/-! ### Depth, width and doubles of a value -/

theorem depthItems_le_iff {items : List Json} {bound : Nat} :
    depthItems items ≤ bound ↔ ∀ item ∈ items, item.depth ≤ bound := by
  induction items with
  | nil => simp [depthItems]
  | cons item rest ih => simp [depthItems, ih]

theorem depthEntries_le_iff {entries : List (String × Json)} {bound : Nat} :
    depthEntries entries ≤ bound ↔ ∀ entry ∈ entries, entry.2.depth ≤ bound := by
  induction entries with
  | nil => simp [depthEntries]
  | cons entry rest ih => simp [depthEntries, ih]

/-- A sequence is one level deeper than its items. -/
theorem depth_array_le_iff {items : List Json} {bound : Nat} :
    depth (.array items) ≤ bound + 1 ↔ ∀ item ∈ items, item.depth ≤ bound := by
  rw [depth, Nat.add_le_add_iff_right, depthItems_le_iff]

/-- A mapping is one level deeper than its values. -/
theorem depth_object_le_iff {entries : List (String × Json)} {bound : Nat} :
    depth (.object entries) ≤ bound + 1 ↔ ∀ entry ∈ entries, entry.2.depth ≤ bound := by
  rw [depth, Nat.add_le_add_iff_right, depthEntries_le_iff]

mutual

/-- The number of items of the longest sequence in a value. -/
def width : Json → Nat
  | .array items => max items.length (widthItems items)
  | .object entries => widthEntries entries
  | _ => 0

/-- The greatest width among items. -/
def widthItems : List Json → Nat
  | [] => 0
  | item :: rest => max item.width (widthItems rest)

/-- The greatest width among the values of entries. -/
def widthEntries : List (String × Json) → Nat
  | [] => 0
  | (_, value) :: rest => max value.width (widthEntries rest)

end

theorem widthItems_le_iff {items : List Json} {bound : Nat} :
    widthItems items ≤ bound ↔ ∀ item ∈ items, item.width ≤ bound := by
  induction items with
  | nil => simp [widthItems]
  | cons item rest ih => simp [widthItems, ih]

/-- The width of a sequence is the number of its items, or the width of its widest item. -/
theorem width_array_le_iff {items : List Json} {bound : Nat} :
    width (.array items) ≤ bound ↔ items.length ≤ bound ∧ ∀ item ∈ items, item.width ≤ bound := by
  rw [width, Nat.max_le, widthItems_le_iff]

/-- The width of a mapping is that of its widest value, as its own entries are not counted. -/
theorem width_object_le_iff {entries : List (String × Json)} {bound : Nat} :
    width (.object entries) ≤ bound ↔ ∀ entry ∈ entries, entry.2.width ≤ bound := by
  rw [width]
  induction entries with
  | nil => simp [widthEntries]
  | cons entry rest ih => simp [widthEntries, ih]

/-- The indices on the way to a reference are less than the width. -/
theorem index_lt_width {json : Json} {path : Path} (hpath : path ∈ json.references) {index : Nat}
    (hindex : .index index ∈ path) : index < json.width := by
  induction json generalizing path with
  | null => exact absurd hpath List.not_mem_nil
  | bool value => exact absurd hpath List.not_mem_nil
  | number value => exact absurd hpath List.not_mem_nil
  | string value => exact absurd hpath List.not_mem_nil
  | array items ih =>
    obtain ⟨hlength, hwidths⟩ := width_array_le_iff.1 (Nat.le_refl (width (.array items)))
    obtain ⟨position, item, hitem, rest, hrest, rfl⟩ := mem_referencesInItems.1 hpath
    -- The index is that of the item, or it comes further down.
    rcases List.mem_cons.1 hindex with heq | hindex
    · obtain ⟨hposition, -⟩ := List.getElem?_eq_some_iff.1 hitem
      cases heq
      omega
    · have hmem := List.mem_of_getElem? hitem
      exact (ih item hmem hrest hindex).trans_le (hwidths item hmem)
  | object entries ih =>
    have hwidths := width_object_le_iff.1 (Nat.le_refl (width (.object entries)))
    rw [references] at hpath
    split at hpath
    · rw [List.mem_singleton.1 hpath] at hindex
      exact absurd hindex List.not_mem_nil
    · obtain ⟨entry, hentry, rest, hrest, rfl⟩ := mem_referencesInEntries.1 hpath
      have htail : .index index ∈ rest := by simpa using hindex
      exact (ih entry hentry hrest htail).trans_le (hwidths entry hentry)

mutual

/-- The doubles in a value. -/
def doubles : Json → List Binary64
  | .number (.double x) => [x]
  | .array items => doublesItems items
  | .object entries => doublesEntries entries
  | _ => []

/-- The doubles in items. -/
def doublesItems : List Json → List Binary64
  | [] => []
  | item :: rest => item.doubles ++ doublesItems rest

/-- The doubles in the values of entries. -/
def doublesEntries : List (String × Json) → List Binary64
  | [] => []
  | (_, value) :: rest => value.doubles ++ doublesEntries rest

end

/-- Every double in the value is read back from its text. -/
def ReadsBack (json : Json) : Prop := ∀ x ∈ json.doubles, (Number.double x).ReadsBack

instance (json : Json) : Decidable json.ReadsBack :=
  inferInstanceAs (Decidable (∀ x ∈ json.doubles, (Number.double x).ReadsBack))

/-- The doubles of a sequence are those of its items. -/
theorem readsBack_array {items : List Json} :
    ReadsBack (.array items) ↔ ∀ item ∈ items, item.ReadsBack := by
  show (∀ x ∈ doublesItems items, _) ↔ _
  induction items with
  | nil => simp [doublesItems]
  | cons item rest ih => simp [doublesItems, or_imp, forall_and, ih, ReadsBack]

theorem readsBack_object {entries : List (String × Json)} :
    ReadsBack (.object entries) ↔ ∀ entry ∈ entries, entry.2.ReadsBack := by
  show (∀ x ∈ doublesEntries entries, _) ↔ _
  induction entries with
  | nil => simp [doublesEntries]
  | cons entry rest ih => simp [doublesEntries, or_imp, forall_and, ih, ReadsBack]

/-! ### Reading back -/

theorem documentItems_eq (items : List Json) : documentItems items = items.map document := by
  induction items with
  | nil => rfl
  | cons item rest ih => rw [documentItems, ih, List.map_cons]

theorem documentEntries_eq (entries : List (String × Json)) :
    documentEntries entries = entries.map fun entry ↦ (entry.1, entry.2.document) := by
  induction entries with
  | nil => rfl
  | cons entry rest ih => rw [documentEntries, ih, List.map_cons]

/-- **A value that is not nested too deep is read as what it is written as.** -/
theorem reread_eq_document {json : Json} {depth : Nat} (hdoubles : json.ReadsBack)
    (hdepth : depth + json.depth ≤ nestingLimit) : json.reread depth = json.document := by
  induction json generalizing depth with
  | null => rfl
  | bool value => rfl
  | number value =>
    cases value with
    | whole n => exact readsBack_iff.1 (readsBack_whole n)
    | double x => exact readsBack_iff.1 (hdoubles x (List.mem_cons_self ..))
  | string value => rfl
  | array items ih =>
    have hlimit : depth < nestingLimit := by
      rw [Json.depth] at hdepth
      omega
    have hitems : ∀ item ∈ items, item.depth ≤ nestingLimit - (depth + 1) :=
      depth_array_le_iff.1 (by omega)
    rw [reread, document, arrayAt, if_pos hlimit, rereadItems_eq, documentItems_eq]
    refine congrArg Document.array (List.map_congr_left fun item hitem ↦ ?_)
    have := hitems item hitem
    exact ih item hitem (readsBack_array.1 hdoubles item hitem) (by omega)
  | object entries ih =>
    have hlimit : depth < nestingLimit := by
      rw [Json.depth] at hdepth
      omega
    have hentries : ∀ entry ∈ entries, entry.2.depth ≤ nestingLimit - (depth + 1) :=
      depth_object_le_iff.1 (by omega)
    rw [reread, document, rereadEntries_eq, documentEntries_eq]
    simp only [objectAt, if_pos hlimit]
    refine congrArg Document.object (List.map_congr_left fun entry hentry ↦ ?_)
    have := hentries entry hentry
    rw [ih entry hentry (readsBack_object.1 hdoubles entry hentry) (by omega)]

/-- One item without a value leaves the items without values. -/
theorem jsonItems?_eq_none {items : List Document} {item : Document} (hmem : item ∈ items)
    (h : item.json? = none) : jsonItems? items = none := by
  induction items with
  | nil => exact absurd hmem List.not_mem_nil
  | cons first rest ih =>
    rw [jsonItems?]
    rcases List.mem_cons.1 hmem with rfl | hmem
    · rw [h]
      rfl
    · rw [ih hmem]
      cases first.json? <;> rfl

/-- One entry without a value leaves the entries without values. -/
theorem jsonEntries?_eq_none {entries : List (String × Document)} {entry : String × Document}
    (hmem : entry ∈ entries) (h : entry.2.json? = none) : jsonEntries? entries = none := by
  induction entries with
  | nil => exact absurd hmem List.not_mem_nil
  | cons first rest ih =>
    rw [jsonEntries?]
    rcases List.mem_cons.1 hmem with rfl | hmem
    · rw [h]
      rfl
    · rw [ih hmem]
      cases first.2.json? <;> rfl

/-- **What is read from a value nested too deep has a part that is not readable.** -/
theorem json?_reread_eq_none {json : Json} {depth : Nat} (hlimit : depth ≤ nestingLimit)
    (hdepth : nestingLimit < depth + json.depth) : (json.reread depth).json? = none := by
  induction json generalizing depth with
  | null => exact absurd hdepth (Nat.not_lt.2 hlimit)
  | bool value => exact absurd hdepth (Nat.not_lt.2 hlimit)
  | number value => exact absurd hdepth (Nat.not_lt.2 hlimit)
  | string value => exact absurd hdepth (Nat.not_lt.2 hlimit)
  | array items ih =>
    rw [reread, arrayAt]
    split
    · next hlimit =>
      -- Some item is too deep itself, and it makes the whole unreadable.
      have hdeep : ¬ ∀ item ∈ items, item.depth ≤ nestingLimit - (depth + 1) := by
        rw [← depth_array_le_iff]
        omega
      push Not at hdeep
      obtain ⟨item, hitem, hdeep⟩ := hdeep
      have hnone : (item.reread (depth + 1)).json? = none := ih item hitem hlimit (by omega)
      rw [json?, rereadItems_eq, jsonItems?_eq_none (List.mem_map_of_mem hitem) hnone]
      rfl
    · rfl
  | object entries ih =>
    rw [reread, objectAt]
    split
    · next hlimit =>
      have hdeep : ¬ ∀ entry ∈ entries, entry.2.depth ≤ nestingLimit - (depth + 1) := by
        rw [← depth_object_le_iff]
        omega
      push Not at hdeep
      obtain ⟨entry, hentry, hdeep⟩ := hdeep
      have hnone : (entry.2.reread (depth + 1)).json? = none := ih entry hentry hlimit (by omega)
      rw [json?, rereadEntries_eq, jsonEntries?_eq_none
        (List.mem_map_of_mem (f := fun entry ↦ (entry.1, entry.2.reread (depth + 1))) hentry) hnone]
      rfl
    · rfl

/-- What is read from a value has a value again only if that is not nested too deep. -/
theorem depth_le_of_json? {json value : Json} {depth : Nat} (hlimit : depth ≤ nestingLimit)
    (h : (json.reread depth).json? = some value) : depth + json.depth ≤ nestingLimit := by
  by_contra hdeep
  rw [json?_reread_eq_none hlimit (Nat.lt_of_not_le hdeep)] at h
  cases h

end Json

namespace Document

/-! ### What is read -/

/-- No sequence in the document has more than `width` items, and at most `levels` sequences and
mappings are around its innermost part. -/
inductive Within (width : Nat) : Nat → Document → Prop
  | null {levels : Nat} : Within width levels .null
  | bool {levels : Nat} (value : Bool) : Within width levels (.bool value)
  | number {levels : Nat} (value : Number) : Within width levels (.number value)
  | string {levels : Nat} (value : String) : Within width levels (.string value)
  | array {levels : Nat} {items : List Document} (hlength : items.length ≤ width)
      (hitems : ∀ item ∈ items, Within width levels item) : Within width (levels + 1) (.array items)
  | object {levels : Nat} {entries : List (String × Document)}
      (hentries : ∀ entry ∈ entries, Within width levels entry.2) :
      Within width (levels + 1) (.object entries)
  | unreadable {levels : Nat} : Within width levels .unreadable

variable {width levels depth : Nat}

/-- A sequence within the limit takes one of the levels that are left, and a deeper one is
unreadable. -/
theorem Within.arrayAt {items : List Document} (hlength : items.length ≤ width)
    (hitems : ∀ item ∈ items, Within width (nestingLimit - (depth + 1)) item) :
    Within width (nestingLimit - depth) (arrayAt depth items) := by
  rw [Document.arrayAt]
  split
  · next hlimit =>
    have hlevels : nestingLimit - depth = nestingLimit - (depth + 1) + 1 := by omega
    rw [hlevels]
    exact .array hlength hitems
  · exact .unreadable

/-- A mapping within the limit takes one of the levels that are left, and a deeper one is
unreadable. -/
theorem Within.objectAt {entries : Option (List (String × Document))}
    (hentries : ∀ found, entries = some found →
      ∀ entry ∈ found, Within width (nestingLimit - (depth + 1)) entry.2) :
    Within width (nestingLimit - depth) (objectAt depth entries) := by
  cases entries with
  | none => exact .unreadable
  | some entries =>
    rw [Document.objectAt]
    split
    · next hlimit =>
      have hlevels : nestingLimit - depth = nestingLimit - (depth + 1) + 1 := by omega
      rw [hlevels]
      exact .object (hentries entries rfl)
    · exact .unreadable

/-- With so much fuel, whatever is read is within the bounds. -/
structure ReadsWithin (width fuel : Nat) : Prop where
  value : ∀ {depth : Nat} {text rest : List Char} {document : Document},
    readValue fuel depth text = some (document, rest) → Within width (nestingLimit - depth) document
  items : ∀ {depth : Nat} {text rest : List Char} {items : List Document},
    readItems fuel depth text = some (items, rest) →
      items.length ≤ fuel ∧ ∀ item ∈ items, Within width (nestingLimit - depth) item
  entries : ∀ {depth : Nat} {text rest : List Char} {entries : List (String × Document)},
    readEntries fuel depth text = some (some entries, rest) →
      ∀ entry ∈ entries, Within width (nestingLimit - depth) entry.2

/-- The step from a fuel to the next, for values. What starts a value decides what is read: a scalar
is within all bounds, and what brackets hold has been read with less fuel, one level deeper. A
sequence has no more items than there was fuel, which is where the width comes from. -/
theorem ReadsWithin.readValue {fuel : Nat} (h : ReadsWithin width fuel) (hfuel : fuel ≤ width)
    {text rest : List Char} {document : Document}
    (hread : readValue (fuel + 1) depth text = some (document, rest)) :
    Within width (nestingLimit - depth) document := by
  rw [Document.readValue] at hread
  split at hread
  · cases hread
    exact .null
  · cases hread
    exact .bool true
  · cases hread
    exact .bool false
  -- A quoted text can hold escapes that are no characters, and is unreadable then.
  · next text _ =>
    obtain ⟨⟨text?, tail⟩, -, heq⟩ := Option.bind_eq_some_iff.1 hread
    cases heq
    cases text? with
    | none => exact .unreadable
    | some value => exact .string value
  · next text _ =>
    split at hread
    · cases hread
      exact .arrayAt (Nat.zero_le _) (by simp)
    · obtain ⟨⟨items, tail⟩, hitems, heq⟩ := Option.bind_eq_some_iff.1 hread
      cases heq
      obtain ⟨hlength, hwithin⟩ := h.items hitems
      exact .arrayAt (hlength.trans hfuel) hwithin
  · next text _ =>
    split at hread
    · cases hread
      exact .objectAt (by simp)
    · obtain ⟨⟨entries, tail⟩, hentries, heq⟩ := Option.bind_eq_some_iff.1 hread
      cases heq
      refine .objectAt fun found hfound ↦ ?_
      subst hfound
      exact h.entries hentries
  · obtain ⟨⟨literal, tail⟩, -, heq⟩ := Option.bind_eq_some_iff.1 hread
    cases heq
    cases literal.value? with
    | none => exact .unreadable
    | some value => exact .number value

/-- The step for items: each takes a unit of fuel, so there are no more items than fuel. -/
theorem ReadsWithin.readItems {fuel : Nat} (h : ReadsWithin width fuel) {text rest : List Char}
    {items : List Document} (hread : readItems (fuel + 1) depth text = some (items, rest)) :
    items.length ≤ fuel + 1 ∧ ∀ item ∈ items, Within width (nestingLimit - depth) item := by
  rw [Document.readItems] at hread
  obtain ⟨⟨item, tail⟩, hitem, hread⟩ := Option.bind_eq_some_iff.1 hread
  dsimp only at hread
  split at hread
  · obtain ⟨⟨items, tail⟩, hitems, heq⟩ := Option.bind_eq_some_iff.1 hread
    cases heq
    obtain ⟨hlength, hwithin⟩ := h.items hitems
    exact ⟨Nat.succ_le_succ hlength, List.forall_mem_cons.2 ⟨h.value hitem, hwithin⟩⟩
  · cases hread
    exact ⟨Nat.succ_le_succ (Nat.zero_le _), List.forall_mem_singleton.2 (h.value hitem)⟩
  · cases hread

/-- The step for entries, whose number is not bounded. -/
theorem ReadsWithin.readEntries {fuel : Nat} (h : ReadsWithin width fuel) {text rest : List Char}
    {entries : List (String × Document)}
    (hread : readEntries (fuel + 1) depth text = some (some entries, rest)) :
    ∀ entry ∈ entries, Within width (nestingLimit - depth) entry.2 := by
  rw [Document.readEntries] at hread
  split at hread
  · obtain ⟨⟨key?, tail⟩, -, hread⟩ := Option.bind_eq_some_iff.1 hread
    dsimp only at hread
    split at hread
    · obtain ⟨⟨value, tail⟩, hvalue, hread⟩ := Option.bind_eq_some_iff.1 hread
      dsimp only at hread
      split at hread
      · obtain ⟨⟨found?, tail⟩, hentries, heq⟩ := Option.bind_eq_some_iff.1 hread
        obtain ⟨heq, -⟩ := Prod.mk.inj (Option.some.inj heq)
        obtain ⟨entry, hentry, heq⟩ := Option.bind_eq_some_iff.1 heq
        obtain ⟨key, -, rfl⟩ := Option.map_eq_some_iff.1 hentry
        obtain ⟨found, rfl, rfl⟩ := Option.map_eq_some_iff.1 heq
        exact List.forall_mem_cons.2 ⟨h.value hvalue, h.entries hentries⟩
      · obtain ⟨heq, -⟩ := Prod.mk.inj (Option.some.inj hread)
        obtain ⟨entry, hentry, rfl⟩ := Option.map_eq_some_iff.1 heq
        obtain ⟨key, -, rfl⟩ := Option.map_eq_some_iff.1 hentry
        exact List.forall_mem_singleton.2 (h.value hvalue)
      · cases hread
    · cases hread
  · cases hread

/-- **Whatever is read is within the bounds**, by induction on the fuel. -/
theorem readsWithin {fuel : Nat} (hfuel : fuel ≤ width + 1) : ReadsWithin width fuel := by
  induction fuel with
  | zero =>
    refine ⟨fun h ↦ ?_, fun h ↦ ?_, fun h ↦ ?_⟩
    · rw [Document.readValue] at h
      cases h
    · rw [Document.readItems] at h
      cases h
    · rw [Document.readEntries] at h
      cases h
  | succ fuel ih =>
    have h := ih (by omega)
    exact ⟨h.readValue (by omega), h.readItems, h.readEntries⟩

/-- **What is read from a text is not nested deeper than the limit**, and wide only as far as there
was text. -/
theorem within_of_parse? {text : String} {document : Document}
    (h : Document.parse? text = some document) :
    Within (2 * text.length + 1) nestingLimit document := by
  rw [Document.parse?] at h
  split at h
  · next found rest hread =>
    split at h
    · cases h
      rw [String.length_toList] at hread
      exact (readsWithin (Nat.le_refl _)).value hread
    · cases h
  · cases h

/-! ### The value of what is read -/

/-- The values of items are those of the single items, as many of them. -/
theorem mem_of_jsonItems? {items : List Document} {values : List Json}
    (h : jsonItems? items = some values) :
    values.length = items.length ∧ ∀ value ∈ values, ∃ item ∈ items, item.json? = some value := by
  induction items generalizing values with
  | nil =>
    cases h
    simp
  | cons item rest ih =>
    obtain ⟨value, hvalue, h⟩ := Option.bind_eq_some_iff.1 h
    obtain ⟨others, hothers, rfl⟩ := Option.map_eq_some_iff.1 h
    obtain ⟨hlength, hmem⟩ := ih hothers
    refine ⟨congrArg Nat.succ hlength, List.forall_mem_cons.2 ⟨⟨item, .head _, hvalue⟩, ?_⟩⟩
    intro other hother
    obtain ⟨item', hitem', hjson⟩ := hmem other hother
    exact ⟨item', .tail _ hitem', hjson⟩

/-- The values of entries are those of the single entries. -/
theorem mem_of_jsonEntries? {entries : List (String × Document)} {values : List (String × Json)}
    (h : jsonEntries? entries = some values) :
    ∀ value ∈ values, ∃ entry ∈ entries, entry.2.json? = some value.2 := by
  induction entries generalizing values with
  | nil =>
    cases h
    simp
  | cons entry rest ih =>
    obtain ⟨value, hvalue, h⟩ := Option.bind_eq_some_iff.1 h
    obtain ⟨others, hothers, rfl⟩ := Option.map_eq_some_iff.1 h
    refine List.forall_mem_cons.2 ⟨⟨entry, .head _, hvalue⟩, fun other hother ↦ ?_⟩
    obtain ⟨entry', hentry', hjson⟩ := ih hothers other hother
    exact ⟨entry', .tail _ hentry', hjson⟩

/-- The bounds pass on to the value. -/
theorem Within.json_le {document : Document} (h : Within width levels document) {json : Json}
    (hjson : document.json? = some json) : json.depth ≤ levels ∧ json.width ≤ width := by
  induction h generalizing json with
  | null | bool value | number value | string value =>
    cases hjson
    exact ⟨Nat.zero_le _, Nat.zero_le _⟩
  | unreadable => cases hjson
  | array hlength hitems ih =>
    obtain ⟨values, hvalues, rfl⟩ := Option.map_eq_some_iff.1 hjson
    obtain ⟨hlength', hmem⟩ := mem_of_jsonItems? hvalues
    rw [Json.depth_array_le_iff, Json.width_array_le_iff]
    refine ⟨fun value hvalue ↦ ?_, hlength' ▸ hlength, fun value hvalue ↦ ?_⟩
    · obtain ⟨item, hitem, hjson⟩ := hmem value hvalue
      exact (ih item hitem hjson).1
    · obtain ⟨item, hitem, hjson⟩ := hmem value hvalue
      exact (ih item hitem hjson).2
  | object hentries ih =>
    obtain ⟨values, hvalues, rfl⟩ := Option.map_eq_some_iff.1 hjson
    -- Merging repeated keys drops entries and adds none.
    have hmem (value : String × Json) (hvalue : value ∈ Entries.merge values) :=
      mem_of_jsonEntries? hvalues value (Entries.mem_of_mem_merge hvalue)
    rw [Json.depth_object_le_iff, Json.width_object_le_iff]
    refine ⟨fun value hvalue ↦ ?_, fun value hvalue ↦ ?_⟩
    · obtain ⟨entry, hentry, hjson⟩ := hmem value hvalue
      exact (ih entry hentry hjson).1
    · obtain ⟨entry, hentry, hjson⟩ := hmem value hvalue
      exact (ih entry hentry hjson).2

end Document

end ActionTools
