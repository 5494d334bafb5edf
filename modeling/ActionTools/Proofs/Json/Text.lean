import ActionTools.Json.Printer
import ActionTools.Proofs.Json.Number

/-!
# The texts of values

The text of a value can be taken apart in one way only. A string ends at the first quote that no
backslash escapes (`readString_quote`), a number where it cannot be prolonged, and the members of a
sequence or mapping are told apart by the commas between them (`joined_append_injective`). Which of
these it is shows in the first character (`kindOf`). So two values with the same compact text are
the same value, the order of their keys included (`compact_injective`).

Both texts of a sequence or mapping are those of its members, `joined` by a separator
(`compactItems_eq`, `prettyItems_eq`). That form is one text followed by the others with a separator
before each, so that in an induction every member is followed by a separator or by a bracket.
-/

namespace ActionTools

/-! ### Strings -/

namespace Document

open Json

/-- What one character of a string becomes when its escape is read. -/
def escapedUnit (c : Char) : StringUnit :=
  if c ∈ ['"', '\\', '\x08', '\x0c', '\n', '\r', '\t'] ∨ 0x20 ≤ c.toNat then .char c
  else .code c.toNat

theorem hexValue?_hexDigit {n : Nat} (h : n < 16) : hexValue? (hexDigit n) = some n := by
  revert n
  decide

/-- The code of a control character is read back from its hexadecimal digits. -/
theorem hexCode?_hexDigit {n : Nat} (h : n < 0x20) :
    hexCode? '0' '0' (hexDigit (n / 16)) (hexDigit n) = some n := by
  have hzero : hexValue? '0' = some 0 := by decide
  have hhigh : hexValue? (hexDigit (n / 16)) = some (n / 16) := hexValue?_hexDigit (by omega)
  have hlow : hexValue? (hexDigit n) = some (n % 16) := by
    have hmod : hexDigit n = hexDigit (n % 16) := by simp [hexDigit]
    rw [hmod]
    exact hexValue?_hexDigit (Nat.mod_lt _ (by decide))
  simp only [hexCode?, hzero, hhigh, hlow, Option.bind_eq_bind, Option.bind_some,
    Option.some.injEq]
  omega

/-- Reading takes a character that is not escaped as one unit. -/
theorem readUnits_cons {c : Char} (hquote : c ≠ '"') (hslash : c ≠ '\\')
    (hplain : 0x20 ≤ c.toNat) (rest : List Char) :
    readUnits (c :: rest) = (readUnits rest).map fun read ↦ (.char c :: read.1, read.2) := by
  rw [readUnits]
  · rw [if_neg (by simp [hslash, hplain])]
    cases readUnits rest <;> rfl
  · exact hquote
  · exact fun _ _ _ _ _ h ↦ absurd h hslash
  · exact fun _ _ h ↦ absurd h hslash

/-- Reading takes the escape of a character as one unit. -/
theorem readUnits_escape_append (c : Char) (rest : List Char) :
    readUnits (escape c ++ rest) =
      (readUnits rest).map fun read ↦ (escapedUnit c :: read.1, read.2) := by
  by_cases hshort : c ∈ ['"', '\\', '\x08', '\x0c', '\n', '\r', '\t']
  · simp only [List.mem_cons, List.not_mem_nil, or_false] at hshort
    -- Each of these has an escape of two characters.
    rcases hshort with rfl | rfl | rfl | rfl | rfl | rfl | rfl
    all_goals
      show readUnits ('\\' :: _ :: rest) = _
      cases hread : readUnits rest with
      | none => simp [readUnits, shortEscape?, hread]
      | some read => simp [readUnits, shortEscape?, hread, escapedUnit]
  · have hne : c ≠ '"' ∧ c ≠ '\\' ∧ c ≠ '\x08' ∧ c ≠ '\x0c' ∧ c ≠ '\n' ∧ c ≠ '\r' ∧ c ≠ '\t' := by
      simpa only [List.mem_cons, List.not_mem_nil, or_false, not_or] using hshort
    obtain ⟨hquote, hslash, h8, hc, hn, hr, ht⟩ := hne
    have hescape : escape c = if c.toNat < 0x20 then
        ['\\', 'u', '0', '0', hexDigit (c.toNat / 16), hexDigit c.toNat] else [c] := by
      rw [escape] <;> assumption
    -- The other control characters are written by their codes, and the rest as they are.
    by_cases hcontrol : c.toNat < 0x20
    · have hunit : escapedUnit c = .code c.toNat := if_neg (by simp [hshort]; omega)
      rw [hescape, if_pos hcontrol, hunit]
      show readUnits ('\\' :: 'u' :: '0' :: '0' :: hexDigit (c.toNat / 16) :: hexDigit c.toNat ::
        rest) = _
      rw [readUnits, hexCode?_hexDigit hcontrol]
      cases hread : readUnits rest with
      | none => rfl
      | some read => rfl
    · have hunit : escapedUnit c = .char c := if_pos (.inr (by omega))
      rw [hescape, if_neg hcontrol, hunit]
      exact readUnits_cons hquote hslash (by omega) rest

/-- Escaped characters are read back one by one, up to the closing quote. -/
theorem readUnits_escaped (chars rest : List Char) :
    readUnits (chars.flatMap escape ++ '"' :: rest) = some (chars.map escapedUnit, rest) := by
  induction chars with
  | nil => rfl
  | cons c chars ih =>
    rw [List.flatMap_cons, List.append_assoc, readUnits_escape_append, ih]
    rfl

/-- No escape is half of a surrogate pair. -/
theorem assemble?_map_escapedUnit (chars : List Char) :
    assemble? (chars.map escapedUnit) = some chars := by
  induction chars with
  | nil => rfl
  | cons c chars ih =>
    rw [List.map_cons, escapedUnit]
    split
    · rw [assemble?, ih]
      rfl
    · next h =>
      have hcontrol : c.toNat < 0x20 := by simp at h; omega
      have hchar : charOfCode? c.toNat = some c := by
        rw [charOfCode?, if_pos (.inl (by omega)), Char.ofNat_toNat]
      simp [assemble?, hchar, ih]

/-- **A string is read back**, whatever follows its closing quote. -/
theorem readString_quote (text : String) (rest : List Char) :
    readString (text.toList.flatMap escape ++ '"' :: rest) = some (some text, rest) := by
  rw [readString, readUnits_escaped]
  show some ((assemble? (text.toList.map escapedUnit)).map String.ofList, rest) = _
  rw [assemble?_map_escapedUnit, Option.map_some, String.ofList_toList]

end Document

namespace Json

/-- **A quoted text can be taken off the front of a text in one way only**: the reader would find
both. -/
theorem quote_append_injective {a b : String} {rest rest' : List Char}
    (h : quote a ++ rest = quote b ++ rest') : a = b ∧ rest = rest' := by
  have hread := Document.readString_quote a rest
  have htail : a.toList.flatMap escape ++ '"' :: rest =
      b.toList.flatMap escape ++ '"' :: rest' := by
    simpa [quote] using h
  rw [htail, Document.readString_quote b rest'] at hread
  simp only [Option.some.injEq, Prod.mk.injEq] at hread
  exact ⟨hread.1.symm, hread.2.symm⟩

/-! ### Members -/

/-- The texts of members with a separator between any two. -/
def joined {α : Type} (separator : List Char) (write : α → List Char) : List α → List Char
  | [] => []
  | member :: rest => write member ++ rest.flatMap fun member ↦ separator ++ write member

theorem joined_singleton {α : Type} (separator : List Char) (write : α → List Char) (member : α) :
    joined separator write [member] = write member := by
  simp [joined]

/-- There is a separator between two members, and none behind the last one. -/
theorem joined_cons_cons {α : Type} (separator : List Char) (write : α → List Char)
    (member next : α) (rest : List α) :
    joined separator write (member :: next :: rest) =
      write member ++ (separator ++ joined separator write (next :: rest)) := by
  simp [joined]

/-- The items of a compact sequence are joined by commas. -/
theorem compactItems_eq (items : List Json) :
    compactItems items = joined [','] compactChars items := by
  induction items with
  | nil => rfl
  | cons item rest ih =>
    cases rest with
    | nil => simp [compactItems, joined]
    | cons next rest => simp [compactItems, ih, joined]

/-- The compact text of an entry. -/
def compactEntry (entry : String × Json) : List Char :=
  quote entry.1 ++ ':' :: entry.2.compactChars

theorem compactEntries_eq (entries : List (String × Json)) :
    compactEntries entries = joined [','] compactEntry entries := by
  induction entries with
  | nil => rfl
  | cons entry rest ih =>
    cases rest with
    | nil => simp [compactEntries, joined, compactEntry]
    | cons next rest => simp [compactEntries, ih, joined, compactEntry]

/-- The items of an indented sequence are joined by commas, each followed by a new line. -/
theorem prettyItems_eq (level : Nat) (items : List Json) :
    prettyItems level items = joined (',' :: newline level) (prettyChars level) items := by
  induction items with
  | nil => rfl
  | cons item rest ih =>
    cases rest with
    | nil => simp [prettyItems, joined]
    | cons next rest => simp [prettyItems, ih, joined]

/-- The pretty text of an entry. -/
def prettyEntry (level : Nat) (entry : String × Json) : List Char :=
  quote entry.1 ++ ':' :: ' ' :: entry.2.prettyChars level

theorem prettyEntries_eq (level : Nat) (entries : List (String × Json)) :
    prettyEntries level entries = joined (',' :: newline level) (prettyEntry level) entries := by
  induction entries with
  | nil => rfl
  | cons entry rest ih =>
    cases rest with
    | nil => simp [prettyEntries, joined, prettyEntry]
    | cons next rest => simp [prettyEntries, ih, joined, prettyEntry]

/-- What follows a member, the other members and a bracket, does not prolong a number. -/
theorem endsNumber_members {α : Type} (write : α → List Char) {close : Char}
    (hclose : EndsNumber [close]) (members : List α) (rest : List Char) :
    EndsNumber ((members.flatMap fun member ↦ [','] ++ write member) ++ close :: rest) := by
  cases members with
  | nil => exact fun c hc ↦ hclose c hc
  | cons member members => exact .cons (by decide) _

section Injectivity

variable {α : Type} {write : α → List Char} {close : Char} {members members' : List α}
  {rest rest' : List Char}

/-- A member's text can be taken off the front of a text in one way only. -/
def Separable (write : α → List Char) (member : α) : Prop :=
  ∀ (member' : α) {rest rest' : List Char}, EndsNumber rest → EndsNumber rest' →
    write member ++ rest = write member' ++ rest' → member = member' ∧ rest = rest'

/-- Separable members, each behind a comma, can be taken off a text in one way only, as what closes
them is no comma. -/
theorem flatMap_append_injective (hclose : EndsNumber [close]) (hcomma : close ≠ ',')
    (hwrite : ∀ member ∈ members, Separable write member)
    (h : (members.flatMap fun member ↦ [','] ++ write member) ++ close :: rest =
      (members'.flatMap fun member ↦ [','] ++ write member) ++ close :: rest') :
    members = members' ∧ rest = rest' := by
  induction members generalizing members' with
  | nil =>
    cases members' with
    | nil => exact ⟨rfl, (List.cons.inj h).2⟩
    | cons member' members' => exact absurd (List.cons.inj h).1 hcomma
  | cons member members ih =>
    cases members' with
    | nil => exact absurd (List.cons.inj h).1.symm hcomma
    | cons member' members' =>
      simp only [List.flatMap_cons, List.cons_append, List.nil_append, List.append_assoc,
        List.cons.injEq, true_and] at h
      obtain ⟨rfl, htail⟩ := hwrite member (List.mem_cons_self ..) member'
        (endsNumber_members write hclose members rest)
        (endsNumber_members write hclose members' rest') h
      obtain ⟨rfl, hrest⟩ := ih (fun member hmember ↦ hwrite member (.tail _ hmember)) htail
      exact ⟨rfl, hrest⟩

/-- **Members are told apart by the commas between them**, when none starts with the bracket that
ends the list. -/
theorem joined_append_injective (hclose : EndsNumber [close]) (hcomma : close ≠ ',')
    (hstart : ∀ member rest rest', write member ++ rest ≠ close :: rest')
    (hwrite : ∀ member ∈ members, Separable write member)
    (h : joined [','] write members ++ close :: rest =
      joined [','] write members' ++ close :: rest') :
    members = members' ∧ rest = rest' := by
  cases members with
  | nil =>
    cases members' with
    | nil => exact ⟨rfl, (List.cons.inj h).2⟩
    | cons member' members' =>
      simp only [joined, List.append_assoc, List.nil_append] at h
      exact absurd h.symm (hstart member' _ _)
  | cons member members =>
    rw [joined, List.append_assoc] at h
    cases members' with
    | nil => exact absurd h (hstart member _ _)
    | cons member' members' =>
      rw [joined, List.append_assoc] at h
      -- The first members are the same, and behind them each member has its comma.
      obtain ⟨rfl, htail⟩ := hwrite member (List.mem_cons_self ..) member'
        (endsNumber_members write hclose members rest)
        (endsNumber_members write hclose members' rest') h
      obtain ⟨rfl, hrest⟩ := flatMap_append_injective hclose hcomma
        (fun member hmember ↦ hwrite member (.tail _ hmember)) htail
      exact ⟨rfl, hrest⟩

end Injectivity

/-! ### First characters -/

/-- What kind of value a text starts. -/
inductive Kind where
  | null
  | bool (value : Bool)
  | number
  | string
  | array
  | object

/-- The kind of a value. -/
def kind : Json → Kind
  | .null => .null
  | .bool value => .bool value
  | .number _ => .number
  | .string _ => .string
  | .array _ => .array
  | .object _ => .object

/-- The kind of value whose text starts with a character, if there is one. -/
def kindOf (c : Char) : Option Kind :=
  if c = 'n' then some .null
  else if c = 't' then some (.bool true)
  else if c = 'f' then some (.bool false)
  else if c = '"' then some .string
  else if c = '[' then some .array
  else if c = '{' then some .object
  else if c = '-' ∨ c.isDigit then some .number
  else none

theorem kindOf_of_isDigit {c : Char} (h : c.isDigit = true) : kindOf c = some .number := by
  have hne (d : Char) (hd : d.isDigit = false) : c ≠ d := fun heq ↦ by simp [heq, hd] at h
  rw [kindOf, if_neg (hne _ (by decide)), if_neg (hne _ (by decide)), if_neg (hne _ (by decide)),
    if_neg (hne _ (by decide)), if_neg (hne _ (by decide)), if_neg (hne _ (by decide)),
    if_pos (.inr h)]

/-- The text of a number starts with a digit or a minus sign. -/
theorem exists_number_chars (n : Number) :
    ∃ c rest, n.chars = c :: rest ∧ kindOf c = some .number := by
  obtain ⟨literal, hwell, htext⟩ := n.exists_literal
  obtain ⟨first, digits, hdigits⟩ := List.exists_cons_of_ne_nil hwell.whole.ne_nil
  have hdigit : (Nat.digitChar first).isDigit = true :=
    isDigit_digitChar (hwell.whole.lt_ten first (hdigits ▸ List.mem_cons_self ..))
  rw [htext, NumberLiteral.text, hdigits]
  cases literal.negative with
  | true => exact ⟨'-', _, rfl, rfl⟩
  | false => exact ⟨Nat.digitChar first, _, rfl, kindOf_of_isDigit hdigit⟩

/-- **The first character shows the kind.** -/
theorem exists_compactChars (json : Json) :
    ∃ c rest, json.compactChars = c :: rest ∧ kindOf c = some json.kind := by
  cases json with
  | null => exact ⟨'n', _, rfl, rfl⟩
  | bool value =>
    cases value with
    | true => exact ⟨'t', _, rfl, rfl⟩
    | false => exact ⟨'f', _, rfl, rfl⟩
  | number value => exact exists_number_chars value
  | string value => exact ⟨'"', _, rfl, rfl⟩
  | array items => exact ⟨'[', _, rfl, rfl⟩
  | object entries => exact ⟨'{', _, rfl, rfl⟩

/-- Two values whose texts begin the same text are of one kind, as the first character tells it. -/
theorem kind_eq_of_compactChars_append {a b : Json} {rest rest' : List Char}
    (h : a.compactChars ++ rest = b.compactChars ++ rest') : a.kind = b.kind := by
  obtain ⟨c, tail, ha, hkind⟩ := a.exists_compactChars
  obtain ⟨c', tail', hb, hkind'⟩ := b.exists_compactChars
  rw [ha, hb] at h
  obtain rfl : c = c' := (List.cons.inj h).1
  exact Option.some.inj (hkind.symm.trans hkind')

/-- No value starts with a closing bracket. -/
theorem compactChars_append_ne {close : Char} (hclose : kindOf close = none) (json : Json)
    (rest rest' : List Char) : json.compactChars ++ rest ≠ close :: rest' := by
  obtain ⟨c, tail, hjson, hkind⟩ := json.exists_compactChars
  rw [hjson]
  intro h
  obtain rfl : c = close := (List.cons.inj h).1
  cases hclose.symm.trans hkind

/-! ### Values -/

/-- The text of a number can be taken off in one way only when something follows that ends it. -/
theorem number_append_injective {m n : Number} {rest rest' : List Char} (hrest : EndsNumber rest)
    (hrest' : EndsNumber rest') (h : m.chars ++ rest = n.chars ++ rest') :
    m = n ∧ rest = rest' := by
  obtain ⟨literal, hwell, hm⟩ := m.exists_literal
  obtain ⟨literal', hwell', hn⟩ := n.exists_literal
  have hread := Document.readNumber_text hwell hrest
  rw [← hm, h, hn, Document.readNumber_text hwell' hrest', Option.some.injEq,
    Prod.mk.injEq] at hread
  exact ⟨Number.chars_injective (hm.trans (hread.1 ▸ hn.symm)), hread.2.symm⟩

/-- The key of an entry is separable since it is quoted, so the entry is if its value is. -/
theorem separable_compactEntry {entry : String × Json} (h : Separable compactChars entry.2) :
    Separable compactEntry entry := by
  intro entry' rest rest' hrest hrest' htext
  simp only [compactEntry, List.append_assoc, List.cons_append] at htext
  obtain ⟨hkey, htail⟩ := quote_append_injective htext
  obtain ⟨hvalue, hrest⟩ := h entry'.2 hrest hrest' (List.cons.inj htail).2
  exact ⟨Prod.ext hkey hvalue, hrest⟩

/-- **The text of a value can be taken off the front of a text in one way only.** -/
theorem separable_compactChars (json : Json) : Separable compactChars json := by
  have hbracket : EndsNumber [']'] := .cons (by decide) []
  have hbrace : EndsNumber ['}'] := .cons (by decide) []
  -- Values of different kinds differ in their first characters.
  induction json with
  | null =>
    intro other rest rest' hrest hrest' h
    cases other <;> cases kind_eq_of_compactChars_append h
    exact ⟨rfl, List.append_cancel_left h⟩
  | bool value =>
    intro other rest rest' hrest hrest' h
    cases other <;> cases kind_eq_of_compactChars_append h
    exact ⟨rfl, List.append_cancel_left h⟩
  | number value =>
    intro other rest rest' hrest hrest' h
    cases other <;> cases kind_eq_of_compactChars_append h
    obtain ⟨rfl, htail⟩ := number_append_injective hrest hrest' h
    exact ⟨rfl, htail⟩
  | string value =>
    intro other rest rest' hrest hrest' h
    cases other <;> cases kind_eq_of_compactChars_append h
    obtain ⟨rfl, htail⟩ := quote_append_injective h
    exact ⟨rfl, htail⟩
  | array items ih =>
    intro other rest rest' hrest hrest' h
    cases other <;> cases kind_eq_of_compactChars_append h
    simp only [compactChars, compactItems_eq, List.cons_append, List.append_assoc, List.nil_append,
      List.cons.injEq, true_and] at h
    obtain ⟨rfl, htail⟩ := joined_append_injective hbracket (by decide)
      (compactChars_append_ne rfl) ih h
    exact ⟨rfl, htail⟩
  | object entries ih =>
    intro other rest rest' hrest hrest' h
    cases other <;> cases kind_eq_of_compactChars_append h
    simp only [compactChars, compactEntries_eq, List.cons_append, List.append_assoc,
      List.nil_append, List.cons.injEq, true_and] at h
    have hstart : ∀ entry rest rest', compactEntry entry ++ rest ≠ '}' :: rest' :=
      fun entry rest rest' h ↦ absurd (List.cons.inj h).1 (by decide)
    obtain ⟨rfl, htail⟩ := joined_append_injective hbrace (by decide) hstart
      (fun entry hentry ↦ separable_compactEntry (ih entry hentry)) h
    exact ⟨rfl, htail⟩

/-- **Different values have different texts.** -/
theorem compact_injective : Function.Injective compact := by
  intro a b h
  have hchars : a.compactChars ++ [] = b.compactChars ++ [] :=
    congrArg (· ++ []) (String.ofList_injective h)
  exact (separable_compactChars a b .nil .nil hchars).1

end Json

end ActionTools
