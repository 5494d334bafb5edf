import ActionTools.Json.Reader
import ActionTools.Proofs.Json.Text

/-!
# Reading the texts of values

`Reads` says of a text that reading takes it off the front of any text as a certain document. It is
closed under putting texts in brackets with commas between them, and blanks where the pretty text
has some (`Reads.array`, `Reads.object`). So the compact and the pretty text of a value are read
alike, as `Json.reread` says (`parse?_text`): part by part, except that a number is read as whatever
its text is read as, and that a sequence or mapping with too many others around it is not readable.

A whole number is read back from its text (`readsBack_whole`). Whether a double is, is a matter of
how its digits are rounded; `Number.ReadsBack` says that it is.
-/

namespace ActionTools

/-- The number is read back from its text. -/
def Number.ReadsBack (n : Number) : Prop :=
  Document.parse? (String.ofList n.chars) = some (.number n)

namespace Document

open Json

/-! ### Blanks -/

theorem skipBlanks_append {blanks : List Char} (h : ∀ c ∈ blanks, isBlank c = true)
    (text : List Char) : skipBlanks (blanks ++ text) = skipBlanks text :=
  List.dropWhile_append_of_pos h

theorem skipBlanks_cons {c : Char} (h : isBlank c = false) (rest : List Char) :
    skipBlanks (c :: rest) = c :: rest := by
  rw [skipBlanks, List.dropWhile_cons_of_neg (by simp [h])]

/-- A value is read in the same way when blanks come before it. -/
theorem readValue_blanks_append {blanks : List Char} (h : ∀ c ∈ blanks, isBlank c = true)
    (fuel depth : Nat) (text : List Char) :
    readValue fuel depth (blanks ++ text) = readValue fuel depth text := by
  cases fuel with
  | zero => rw [readValue, readValue]
  | succ fuel => rw [readValue, skipBlanks_append h, readValue]

theorem isBlank_of_kindOf {c : Char} {kind : Kind} (h : kindOf c = some kind) :
    isBlank c = false := by
  cases hblank : isBlank c with
  | false => rfl
  | true =>
    simp only [isBlank, Bool.or_eq_true, beq_iff_eq] at hblank
    rcases hblank with ((rfl | rfl) | rfl) | rfl <;> cases h

/-- A blank ends a number, and so does nothing before what ends one. -/
theorem endsNumber_blanks_append {blanks : List Char} (h : ∀ c ∈ blanks, isBlank c = true)
    {text : List Char} (htext : EndsNumber text) : EndsNumber (blanks ++ text) := by
  cases blanks with
  | nil => exact htext
  | cons c blanks =>
    have hc := h c (List.mem_cons_self ..)
    simp only [isBlank, Bool.or_eq_true, beq_iff_eq] at hc
    rcases hc with ((rfl | rfl) | rfl) | rfl
    all_goals exact .cons (by decide) _

/-! ### Texts that are read -/

/-- Reading takes the text off the front of any text as a document, with `depth` sequences and
mappings around it. -/
structure Reads (depth : Nat) (text : List Char) (document : Document) : Prop where
  starts : ∃ c rest kind, text = c :: rest ∧ kindOf c = some kind
  read : ∀ {fuel : Nat} {rest : List Char}, 2 * text.length ≤ fuel → EndsNumber rest →
    readValue fuel depth (text ++ rest) = some (document, rest)

/-- One step of fuel is spent on the first character. -/
theorem Reads.of_cons {depth : Nat} {c : Char} {tail : List Char} {document : Document}
    {kind : Kind} (hkind : kindOf c = some kind)
    (hread : ∀ {fuel : Nat} {rest : List Char}, 2 * tail.length + 1 ≤ fuel → EndsNumber rest →
      readValue (fuel + 1) depth (c :: (tail ++ rest)) = some (document, rest)) :
    Reads depth (c :: tail) document where
  starts := ⟨c, tail, kind, rfl, hkind⟩
  read {fuel rest} hfuel hrest := by
    rw [List.length_cons] at hfuel
    obtain ⟨fuel, rfl⟩ : ∃ fuel', fuel = fuel' + 1 := ⟨fuel - 1, by omega⟩
    exact hread (by omega) hrest

section Brackets

variable {α : Type} {depth : Nat} {before after : List Char} {write : α → List Char}
  {read : α → Document} {members : List α}

/-- Items are read one after another when each of them is, up to the bracket. The fuel is twice the
length of what is joined and one more: it is enough for an item and its comma, and leaves enough for
the rest. So the induction is on the items, with the fuel left open. -/
theorem readItems_joined (hbefore : ∀ c ∈ before, isBlank c = true)
    (hafter : ∀ c ∈ after, isBlank c = true) (hne : members ≠ [])
    (hread : ∀ member ∈ members, Reads depth (write member) (read member)) {fuel : Nat}
    (hfuel : 2 * (joined [','] (fun member ↦ before ++ write member) members).length + 1 ≤ fuel)
    (rest : List Char) :
    readItems fuel depth
        (joined [','] (fun member ↦ before ++ write member) members ++ (after ++ ']' :: rest)) =
      some (members.map read, rest) := by
  -- What follows the last item are blanks and the bracket: no part of a number.
  have hbracket : EndsNumber (after ++ ']' :: rest) :=
    endsNumber_blanks_append hafter (.cons (by decide) _)
  have hskip : skipBlanks (after ++ ']' :: rest) = ']' :: rest := by
    rw [skipBlanks_append hafter, skipBlanks_cons (by decide)]
  induction members generalizing fuel with
  | nil => exact absurd rfl hne
  | cons member members ih =>
    obtain ⟨fuel, rfl⟩ : ∃ fuel', fuel = fuel' + 1 := ⟨fuel - 1, by omega⟩
    obtain ⟨hmember, hmembers⟩ := List.forall_mem_cons.1 hread
    cases members with
    | nil =>
      have hlength : 2 * (write member).length ≤ fuel := by
        simp only [joined_singleton, List.length_append] at hfuel
        omega
      rw [joined_singleton, List.append_assoc, readItems, readValue_blanks_append hbefore,
        hmember.read hlength hbracket]
      simp [hskip]
    | cons next members =>
      have hlength : 2 * (write member).length ≤ fuel ∧
          2 * (joined [','] (fun member ↦ before ++ write member) (next :: members)).length + 1 ≤
            fuel := by
        simp only [joined_cons_cons, List.length_append, List.length_singleton] at hfuel
        omega
      have hcomma : ∀ text, EndsNumber (',' :: text) := .cons (by decide)
      have htail := ih (List.cons_ne_nil _ _) hmembers hlength.2
      rw [joined_cons_cons, List.append_assoc, List.append_assoc, List.append_assoc,
        List.singleton_append, readItems, readValue_blanks_append hbefore,
        hmember.read hlength.1 (hcomma _)]
      simp [skipBlanks_cons (show isBlank ',' = false by decide), htail]

/-- The text of an entry, with blanks before its value. -/
def entryText (gap : List Char) (write : α → List Char) (entry : String × α) : List Char :=
  quote entry.1 ++ ':' :: (gap ++ write entry.2)

/-- An entry is longer than its value by two quotes and a colon at least. -/
theorem length_entryText (gap : List Char) (write : α → List Char) (entry : String × α) :
    (write entry.2).length + 3 ≤ (entryText gap write entry).length := by
  simp only [entryText, quote, List.length_append, List.length_cons, List.length_nil]
  omega

/-- Reading an entry off a text leaves the reader at the comma or the brace that follows it. -/
theorem readEntries_entryText {gap : List Char} (hbefore : ∀ c ∈ before, isBlank c = true)
    (hgap : ∀ c ∈ gap, isBlank c = true) {entry : String × α}
    (hread : Reads depth (write entry.2) (read entry.2)) {fuel : Nat}
    (hfuel : 2 * (write entry.2).length ≤ fuel) {rest tail : List Char}
    (hrest : EndsNumber rest) :
    (skipBlanks rest = ',' :: tail →
      readEntries (fuel + 1) depth (before ++ (entryText gap write entry ++ rest)) =
        (readEntries fuel depth tail).map fun (entries, rest) ↦
          (entries.map ((entry.1, read entry.2) :: ·), rest)) ∧
      (skipBlanks rest = '}' :: tail →
        readEntries (fuel + 1) depth (before ++ (entryText gap write entry ++ rest)) =
          some (some [(entry.1, read entry.2)], tail)) := by
  have hquote : isBlank '"' = false := by decide
  have hcolon : isBlank ':' = false := by decide
  have htext : entryText gap write entry ++ rest =
      '"' :: (entry.1.toList.flatMap escape ++
        '"' :: (':' :: (gap ++ (write entry.2 ++ rest)))) := by
    simp [entryText, quote]
  rw [readEntries, skipBlanks_append hbefore, htext, skipBlanks_cons hquote]
  simp only [readString_quote, Option.bind_eq_bind, Option.bind_some, skipBlanks_cons hcolon,
    readValue_blanks_append hgap, hread.read hfuel hrest, Option.map_some]
  constructor
  · intro htail
    simp only [htail]
    cases readEntries fuel depth tail <;> rfl
  · intro htail
    simp only [htail]

/-- A bracket of entries is read entry by entry. -/
theorem readEntries_joined {gap : List Char} (hbefore : ∀ c ∈ before, isBlank c = true)
    (hafter : ∀ c ∈ after, isBlank c = true) (hgap : ∀ c ∈ gap, isBlank c = true)
    {entries : List (String × α)} (hne : entries ≠ [])
    (hread : ∀ entry ∈ entries, Reads depth (write entry.2) (read entry.2)) {fuel : Nat}
    (hfuel : 2 * (joined [','] (fun entry ↦ before ++ entryText gap write entry) entries).length ≤
      fuel) (rest : List Char) :
    readEntries fuel depth
        (joined [','] (fun entry ↦ before ++ entryText gap write entry) entries ++
          (after ++ '}' :: rest)) =
      some (some (entries.map fun entry ↦ (entry.1, read entry.2)), rest) := by
  have hbrace : EndsNumber (after ++ '}' :: rest) :=
    endsNumber_blanks_append hafter (.cons (by decide) _)
  have hskip : skipBlanks (after ++ '}' :: rest) = '}' :: rest := by
    rw [skipBlanks_append hafter, skipBlanks_cons (by decide)]
  induction entries generalizing fuel with
  | nil => exact absurd rfl hne
  | cons entry entries ih =>
    obtain ⟨hentry, hentries⟩ := List.forall_mem_cons.1 hread
    -- The quotes and the colon of an entry pay for reading its key.
    have hlength := length_entryText gap write entry
    cases entries with
    | nil =>
      simp only [joined_singleton, List.length_append] at hfuel
      obtain ⟨fuel, rfl⟩ : ∃ fuel', fuel = fuel' + 1 := ⟨fuel - 1, by omega⟩
      rw [joined_singleton, List.append_assoc,
        (readEntries_entryText hbefore hgap hentry (by omega) hbrace).2 hskip]
      rfl
    | cons next entries =>
      simp only [joined_cons_cons, List.length_append, List.length_singleton] at hfuel
      obtain ⟨fuel, rfl⟩ : ∃ fuel', fuel = fuel' + 1 := ⟨fuel - 1, by omega⟩
      have hcomma : ∀ text, EndsNumber (',' :: text) := .cons (by decide)
      have hblank : isBlank ',' = false := by decide
      have htail := @ih (List.cons_ne_nil _ _) hentries fuel (by omega)
      rw [joined_cons_cons, List.append_assoc, List.append_assoc, List.append_assoc,
        List.singleton_append, (readEntries_entryText hbefore hgap hentry (by omega)
          (hcomma _)).1 (skipBlanks_cons hblank _), htail]
      rfl

/-- A text whose members start values does not start with a closing bracket. -/
theorem skipBlanks_joined_ne (hbefore : ∀ c ∈ before, isBlank c = true) {β : Type}
    {text : β → List Char} {members : List β} (hne : members ≠ [])
    (hstarts : ∀ member ∈ members, ∃ c rest kind, text member = c :: rest ∧ kindOf c = some kind)
    {close : Char} (hclose : kindOf close = none) (tail rest : List Char) :
    skipBlanks (joined [','] (fun member ↦ before ++ text member) members ++ tail) ≠
      close :: rest := by
  obtain ⟨member, members, rfl⟩ := List.exists_cons_of_ne_nil hne
  obtain ⟨c, _, kind, htext, hkind⟩ := hstarts member (List.mem_cons_self ..)
  rw [joined, List.append_assoc, List.append_assoc, skipBlanks_append hbefore, htext,
    List.cons_append, skipBlanks_cons (isBlank_of_kindOf hkind)]
  intro heq
  obtain rfl : c = close := (List.cons.inj heq).1
  cases hclose.symm.trans hkind

/-- Behind a bracket that is not closed at once, items are read one level deeper. -/
theorem readValue_bracket {fuel depth : Nat} {text : List Char}
    (h : ∀ rest, skipBlanks text ≠ ']' :: rest) :
    readValue (fuel + 1) depth ('[' :: text) =
      (readItems fuel (depth + 1) text).map fun (items, rest) ↦ (arrayAt depth items, rest) := by
  rw [readValue, skipBlanks_cons (by decide)]
  simp only
  cases readItems fuel (depth + 1) text <;> rfl

/-- Behind a brace that is not closed at once, entries are read one level deeper. -/
theorem readValue_brace {fuel depth : Nat} {text : List Char}
    (h : ∀ rest, skipBlanks text ≠ '}' :: rest) :
    readValue (fuel + 1) depth ('{' :: text) =
      (readEntries fuel (depth + 1) text).map fun (entries, rest) ↦
        (objectAt depth entries, rest) := by
  rw [readValue, skipBlanks_cons (by decide)]
  simp only
  cases readEntries fuel (depth + 1) text <;> rfl

/-- Texts in square brackets are read as a sequence. -/
theorem Reads.array (hbefore : ∀ c ∈ before, isBlank c = true)
    (hafter : ∀ c ∈ after, isBlank c = true) (hne : members ≠ [])
    (hread : ∀ member ∈ members, Reads (depth + 1) (write member) (read member)) :
    Reads depth
      ('[' :: (joined [','] (fun member ↦ before ++ write member) members ++ (after ++ [']'])))
      (arrayAt depth (members.map read)) := by
  refine .of_cons (show kindOf '[' = some .array from rfl) fun {fuel rest} hfuel _ ↦ ?_
  have hlength : 2 * (joined [','] (fun member ↦ before ++ write member) members).length + 1 ≤
      fuel := by
    simp only [List.length_append] at hfuel
    omega
  have hopen := skipBlanks_joined_ne hbefore hne
    (fun member hmember ↦ (hread member hmember).starts) (show kindOf ']' = none from rfl)
    (after ++ ']' :: rest)
  rw [List.append_assoc, List.append_assoc, List.singleton_append, readValue_bracket hopen,
    readItems_joined hbefore hafter hne hread hlength]
  rfl

/-- Entries in braces are read as a mapping. -/
theorem Reads.object {gap : List Char} (hbefore : ∀ c ∈ before, isBlank c = true)
    (hafter : ∀ c ∈ after, isBlank c = true) (hgap : ∀ c ∈ gap, isBlank c = true)
    {entries : List (String × α)} (hne : entries ≠ [])
    (hread : ∀ entry ∈ entries, Reads (depth + 1) (write entry.2) (read entry.2)) :
    Reads depth
      ('{' :: (joined [','] (fun entry ↦ before ++ entryText gap write entry) entries ++
        (after ++ ['}'])))
      (objectAt depth (some (entries.map fun entry ↦ (entry.1, read entry.2)))) := by
  refine .of_cons (show kindOf '{' = some .object from rfl) fun {fuel rest} hfuel _ ↦ ?_
  have hlength : 2 * (joined [','] (fun entry ↦ before ++ entryText gap write entry)
      entries).length ≤ fuel := by
    simp only [List.length_append] at hfuel
    omega
  have hopen := skipBlanks_joined_ne hbefore hne
    (fun entry _ ↦ (⟨'"', _, _, rfl, rfl⟩ : ∃ c rest kind,
      entryText gap write entry = c :: rest ∧ kindOf c = some kind))
    (show kindOf '}' = none from rfl) (after ++ '}' :: rest)
  rw [List.append_assoc, List.append_assoc, List.singleton_append, readValue_brace hopen,
    readEntries_joined hbefore hafter hgap hne hread hlength]
  rfl

end Brackets

/-! ### Scalars and empty brackets -/

variable {depth : Nat}

theorem reads_null : Reads depth ['n', 'u', 'l', 'l'] .null := by
  refine .of_cons (show kindOf 'n' = some .null from rfl) fun _ _ ↦ ?_
  rw [readValue, skipBlanks_cons (by decide)]
  rfl

theorem reads_bool (value : Bool) : Reads depth (compactChars (.bool value)) (.bool value) := by
  cases value with
  | true =>
    refine .of_cons (show kindOf 't' = some (.bool true) from rfl) fun _ _ ↦ ?_
    rw [readValue, skipBlanks_cons (by decide)]
    rfl
  | false =>
    refine .of_cons (show kindOf 'f' = some (.bool false) from rfl) fun _ _ ↦ ?_
    rw [readValue, skipBlanks_cons (by decide)]
    rfl

theorem reads_string (text : String) : Reads depth (quote text) (.string text) := by
  refine .of_cons (show kindOf '"' = some .string from rfl) fun {fuel rest} _ _ ↦ ?_
  rw [readValue, skipBlanks_cons (by decide)]
  show (readString (text.toList.flatMap escape ++ ['"'] ++ rest)).bind _ = _
  rw [List.append_assoc, List.singleton_append, readString_quote]
  rfl

/-- A value that starts like a number is read as a literal, whatever the level. -/
theorem readValue_of_number {c : Char} (hc : kindOf c = some .number) (fuel : Nat)
    (rest : List Char) :
    readValue (fuel + 1) depth (c :: rest) =
      (readNumber (c :: rest)).map fun (literal, rest) ↦
        ((literal.value?.map .number).getD .unreadable, rest) := by
  rw [readValue, skipBlanks_cons (isBlank_of_kindOf hc)]
  split
  · next heq => obtain rfl := (List.cons.inj heq).1; cases hc
  · next heq => obtain rfl := (List.cons.inj heq).1; cases hc
  · next heq => obtain rfl := (List.cons.inj heq).1; cases hc
  · next heq => obtain rfl := (List.cons.inj heq).1; cases hc
  · next heq => obtain rfl := (List.cons.inj heq).1; cases hc
  · next heq => obtain rfl := (List.cons.inj heq).1; cases hc
  · cases readNumber (c :: rest) <;> rfl

/-- What the text of a number is read as. -/
def numberDocument (n : Number) : Document :=
  match readNumber n.chars with
  | some (literal, _) => (literal.value?.map .number).getD .unreadable
  | none => .unreadable

/-- A number is read as the value that the literal in its text stands for. -/
theorem numberDocument_of_literal {n : Number} {literal : NumberLiteral}
    (hwell : literal.WellFormed) (htext : n.chars = literal.text) :
    numberDocument n = (literal.value?.map .number).getD .unreadable := by
  have halone := readNumber_text hwell .nil
  rw [List.append_nil, ← htext] at halone
  rw [numberDocument, halone]

/-- The text of a number is read as its literal is, whether that is in range or not. -/
theorem reads_number (n : Number) : Reads depth n.chars (numberDocument n) := by
  obtain ⟨c, tail, hchars, hkind⟩ := exists_number_chars n
  obtain ⟨literal, hwell, htext⟩ := n.exists_literal
  rw [hchars]
  refine .of_cons hkind fun {fuel rest} _ hrest ↦ ?_
  have hnumber : readNumber (c :: (tail ++ rest)) = some (literal, rest) := by
    rw [← List.cons_append, ← hchars, htext]
    exact readNumber_text hwell hrest
  rw [numberDocument_of_literal hwell htext, readValue_of_number hkind, hnumber]
  rfl

theorem reads_brackets : Reads depth ['[', ']'] (arrayAt depth []) := by
  refine .of_cons (show kindOf '[' = some .array from rfl) fun {fuel rest} _ _ ↦ ?_
  have hclose : skipBlanks ([']'] ++ rest) = ']' :: rest := skipBlanks_cons (by decide) rest
  rw [readValue, skipBlanks_cons (by decide)]
  simp only [hclose]

theorem reads_braces : Reads depth ['{', '}'] (objectAt depth (some [])) := by
  refine .of_cons (show kindOf '{' = some .object from rfl) fun {fuel rest} _ _ ↦ ?_
  have hclose : skipBlanks (['}'] ++ rest) = '}' :: rest := skipBlanks_cons (by decide) rest
  rw [readValue, skipBlanks_cons (by decide)]
  simp only [hclose]

end Document

/-! ### Values -/

namespace Json

open Document

mutual

/-- What the text of a value is read as, with `depth` sequences and mappings around it. -/
def reread (depth : Nat) : Json → Document
  | .null => .null
  | .bool value => .bool value
  | .number value => numberDocument value
  | .string value => .string value
  | .array items => arrayAt depth (rereadItems (depth + 1) items)
  | .object entries => objectAt depth (some (rereadEntries (depth + 1) entries))

/-- What the texts of items are read as. -/
def rereadItems (depth : Nat) : List Json → List Document
  | [] => []
  | item :: rest => item.reread depth :: rereadItems depth rest

/-- What the texts of entries are read as. -/
def rereadEntries (depth : Nat) : List (String × Json) → List (String × Document)
  | [] => []
  | (key, value) :: rest => (key, value.reread depth) :: rereadEntries depth rest

end

theorem rereadItems_eq (depth : Nat) (items : List Json) :
    rereadItems depth items = items.map (reread depth) := by
  induction items with
  | nil => rfl
  | cons item rest ih => rw [rereadItems, ih, List.map_cons]

theorem rereadEntries_eq (depth : Nat) (entries : List (String × Json)) :
    rereadEntries depth entries = entries.map fun entry ↦ (entry.1, entry.2.reread depth) := by
  induction entries with
  | nil => rfl
  | cons entry rest ih => rw [rereadEntries, ih, List.map_cons]

/-- **The compact text of a value is read as `reread` says**, by induction on the value. Each pair
of brackets adds a level, so the depth is left open. -/
theorem reads_compactChars (json : Json) (depth : Nat) :
    Reads depth json.compactChars (json.reread depth) := by
  induction json generalizing depth with
  | null => exact reads_null
  | bool value => exact reads_bool value
  | number value => exact reads_number value
  | string value => exact reads_string value
  | array items ih =>
    by_cases hne : items = []
    · subst hne
      exact reads_brackets
    · have h := @Reads.array Json depth [] [] compactChars (reread (depth + 1)) items
        (by simp) (by simp) hne fun item hitem ↦ ih item hitem (depth + 1)
      rw [compactChars, compactItems_eq, reread, rereadItems_eq]
      exact h
  | object entries ih =>
    by_cases hne : entries = []
    · subst hne
      exact reads_braces
    · have h := @Reads.object Json depth [] [] compactChars (reread (depth + 1)) []
        (by simp) (by simp) (by simp) entries hne fun entry hentry ↦ ih entry hentry (depth + 1)
      rw [compactChars, compactEntries_eq, reread, rereadEntries_eq]
      exact h

theorem isBlank_of_mem_newline (level : Nat) : ∀ c ∈ newline level, isBlank c = true := by
  intro c hc
  rcases List.mem_cons.1 hc with rfl | hc
  · rfl
  · rw [List.eq_of_mem_replicate hc]
    rfl

/-- The blanks behind each comma and before the first member are blanks before each member. -/
theorem append_joined {α : Type} (before : List Char) (write : α → List Char) {members : List α}
    (hne : members ≠ []) :
    before ++ joined (',' :: before) write members =
      joined [','] (fun member ↦ before ++ write member) members := by
  obtain ⟨member, members, rfl⟩ := List.exists_cons_of_ne_nil hne
  simp [joined]

/-- **The indented text of a value is read as the compact one is.** Line breaks and indentation are
blanks, and blanks may stand before each member, behind the last one and behind a colon. Those are
the places where the two texts differ. -/
theorem reads_prettyChars (json : Json) (depth level : Nat) :
    Reads depth (json.prettyChars level) (json.reread depth) := by
  induction json generalizing depth level with
  | null => exact reads_null
  | bool value =>
    cases value with
    | true => exact reads_bool true
    | false => exact reads_bool false
  | number value => exact reads_number value
  | string value => exact reads_string value
  | array items ih =>
    by_cases hne : items = []
    · subst hne
      exact reads_brackets
    · have h := Reads.array (isBlank_of_mem_newline (level + 1)) (isBlank_of_mem_newline level) hne
        fun item hitem ↦ ih item hitem (depth + 1) (level + 1)
      -- The line break before the first item is taken into what is joined, so each item has one.
      rw [← append_joined _ _ hne, ← prettyItems_eq] at h
      rw [prettyChars, reread, rereadItems_eq]
      · simpa using h
      · exact hne
  | object entries ih =>
    by_cases hne : entries = []
    · subst hne
      exact reads_braces
    · have hgap : ∀ c ∈ [' '], isBlank c = true := List.forall_mem_singleton.2 rfl
      have h := Reads.object (isBlank_of_mem_newline (level + 1)) (isBlank_of_mem_newline level)
        hgap hne fun entry hentry ↦ ih entry hentry (depth + 1) (level + 1)
      have hentries : joined (',' :: newline (level + 1))
          (entryText [' '] (prettyChars (level + 1))) entries = prettyEntries (level + 1) entries :=
        (prettyEntries_eq (level + 1) entries).symm
      rw [← append_joined _ _ hne, hentries] at h
      rw [prettyChars, reread, rereadEntries_eq]
      · simpa using h
      · exact hne

/-! ### Whole texts -/

/-- A text that is read off the front of any text is read when it is the whole of it. -/
theorem parse?_of_reads {chars : List Char} {document : Document} (h : Reads 0 chars document) :
    Document.parse? (String.ofList chars) = some document := by
  have hread := @Reads.read 0 chars document h (2 * chars.length + 2) [] (by omega) .nil
  rw [List.append_nil] at hread
  simp [Document.parse?, hread, skipBlanks]

/-- **Either text of a value is read as `reread` says.** -/
theorem parse?_text (json : Json) (isPretty : Bool) :
    Document.parse? (json.text isPretty) = some (json.reread 0) := by
  cases isPretty with
  | true => exact parse?_of_reads (json.reads_prettyChars 0 0)
  | false => exact parse?_of_reads (json.reads_compactChars 0)

/-- A number is read back from its text when that is read as this very number. -/
theorem readsBack_iff {n : Number} : n.ReadsBack ↔ numberDocument n = .number n := by
  rw [Number.ReadsBack, parse?_of_reads (reads_number n), Option.some.injEq]

/-- A number is read back when its text is a literal that names it. -/
theorem readsBack_iff_value? {n : Number} :
    n.ReadsBack ↔ ((readNumber n.chars).bind fun (literal, _) ↦ literal.value?) = some n := by
  rw [readsBack_iff, numberDocument]
  cases readNumber n.chars with
  | none => simp
  | some pair =>
    obtain ⟨literal, rest⟩ := pair
    dsimp only [Option.bind_some]
    cases literal.value? with
    | none => simp
    | some value => simp

instance (n : Number) : Decidable n.ReadsBack := decidable_of_iff' _ readsBack_iff_value?

/-- A whole number is read back. -/
theorem readsBack_whole (n : Whole) : (Number.whole n).ReadsBack := by
  obtain ⟨literal, hwell, htext, hvalue, -⟩ := n.exists_literal
  have hchars : (Number.whole n).chars = literal.text := htext
  rw [readsBack_iff, numberDocument_of_literal hwell hchars, hvalue]
  rfl

end Json

end ActionTools
