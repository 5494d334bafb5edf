import ActionTools.Json.Document

/-!
# Reading JSON text

The reader follows the grammar strictly: no comments, no trailing commas, no leading zeros, no bare
control characters in strings, nothing after the value. What it takes from the front of a text and
what it leaves are always given together.

A string is read in two steps. `readUnits` follows the grammar and leaves every `\u` escape as the
number it is; `assemble?` then joins surrogate pairs, and fails on half a pair. Numbers likewise
are first a `NumberLiteral`. Where the second step fails the part is `Document.unreadable`.

A sequence or mapping is unreadable as well when 127 others are around it. The recursion is bounded
by fuel; `Document.parse?` gives it more than any text can use.
-/

namespace ActionTools

namespace Document

/-! ### Blanks and digits -/

/-- The four blanks of JSON. -/
def isBlank (c : Char) : Bool := c == ' ' || c == '\n' || c == '\t' || c == '\r'

/-- A text without its leading blanks. -/
def skipBlanks (text : List Char) : List Char := text.dropWhile isBlank

/-- The values of the digits at the front of a text, and the rest. -/
def readDigits (text : List Char) : List Nat × List Char :=
  ((text.takeWhile Char.isDigit).map fun c ↦ c.toNat - '0'.toNat, text.dropWhile Char.isDigit)

/-! ### Numbers -/

/-- The digits after a point, when there is a point. -/
def readFraction : List Char → Option (Option (List Nat) × List Char)
  | '.' :: rest =>
    match readDigits rest with
    | ([], _) => none
    | (digits, rest) => some (some digits, rest)
  | rest => some (none, rest)

/-- Whether a sign is minus, no sign counting as plus. -/
def readSign : List Char → Bool × List Char
  | '-' :: rest => (true, rest)
  | '+' :: rest => (false, rest)
  | rest => (false, rest)

/-- The exponent after a number, when there is one. -/
def readExponent : List Char → Option (Option (Bool × List Nat) × List Char)
  | c :: rest =>
    if c = 'e' ∨ c = 'E' then
      let (negative, rest) := readSign rest
      match readDigits rest with
      | ([], _) => none
      | (digits, rest) => some (some (negative, digits), rest)
    else some (none, c :: rest)
  | [] => some (none, [])

/-- The number at the front of a text. A leading zero stands alone. -/
def readNumber (text : List Char) : Option (NumberLiteral × List Char) :=
  let (negative, text) :=
    match text with
    | '-' :: rest => (true, rest)
    | _ => (false, text)
  match readDigits text with
  | ([], _) => none
  | (0 :: _ :: _, _) => none
  | (whole, rest) => do
    let (fraction, rest) ← readFraction rest
    let (exponent, rest) ← readExponent rest
    some (⟨negative, whole, fraction, exponent⟩, rest)

/-! ### Strings -/

/-- A part of a string: a character, or the number in a `\u` escape. -/
inductive StringUnit where
  | char (value : Char)
  | code (value : Nat)

/-- The value of a hexadecimal digit. -/
def hexValue? (c : Char) : Option Nat :=
  if '0' ≤ c ∧ c ≤ '9' then some (c.toNat - '0'.toNat)
  else if 'a' ≤ c ∧ c ≤ 'f' then some (c.toNat - 'a'.toNat + 10)
  else if 'A' ≤ c ∧ c ≤ 'F' then some (c.toNat - 'A'.toNat + 10)
  else none

/-- The number of four hexadecimal digits. -/
def hexCode? (a b c d : Char) : Option Nat := do
  some ((((← hexValue? a) * 16 + (← hexValue? b)) * 16 + (← hexValue? c)) * 16 + (← hexValue? d))

/-- The character that a one-letter escape stands for. -/
def shortEscape? : Char → Option Char
  | '"' => some '"'
  | '\\' => some '\\'
  | '/' => some '/'
  | 'b' => some '\x08'
  | 'f' => some '\x0c'
  | 'n' => some '\n'
  | 'r' => some '\r'
  | 't' => some '\t'
  | _ => none

/-- The parts of a string up to its closing quote, and the text after that. -/
def readUnits : List Char → Option (List StringUnit × List Char)
  | [] => none
  | '"' :: rest => some ([], rest)
  | '\\' :: 'u' :: a :: b :: c :: d :: rest => do
    let code ← hexCode? a b c d
    let (units, rest) ← readUnits rest
    some (.code code :: units, rest)
  | '\\' :: c :: rest => do
    let char ← shortEscape? c
    let (units, rest) ← readUnits rest
    some (.char char :: units, rest)
  | c :: rest =>
    if c = '\\' ∨ c.toNat < 0x20 then none
    else do
      let (units, rest) ← readUnits rest
      some (.char c :: units, rest)

/-- The character of a code that is not half of a pair. -/
def charOfCode? (code : Nat) : Option Char :=
  if code < 0xD800 ∨ 0xDFFF < code then some (Char.ofNat code) else none

/-- The character of two codes that are the halves of a pair. -/
def charOfPair? (high low : Nat) : Option Char :=
  if 0xD800 ≤ high ∧ high < 0xDC00 ∧ 0xDC00 ≤ low ∧ low < 0xE000 then
    some (Char.ofNat (0x10000 + (high - 0xD800) * 0x400 + (low - 0xDC00)))
  else none

/-- The characters of a string's parts, if no half of a pair is alone. -/
def assemble? : List StringUnit → Option (List Char)
  | [] => some []
  | .char c :: rest => (assemble? rest).map (c :: ·)
  | .code code :: rest =>
    match charOfCode? code, rest with
    | some c, rest => (assemble? rest).map (c :: ·)
    | none, .code low :: rest =>
      (charOfPair? code low).bind fun c ↦ (assemble? rest).map (c :: ·)
    | none, _ => none

/-- The string whose opening quote is just before the text, `none` in place of a string with half a
pair, and the text after its closing quote. -/
def readString (text : List Char) : Option (Option String × List Char) := do
  let (units, rest) ← readUnits text
  some ((assemble? units).map String.ofList, rest)

/-! ### Values -/

/-- The greatest number of sequences and mappings around a readable sequence or mapping. -/
def nestingLimit : Nat := 127

/-- The document of a sequence that has `depth` others around it. -/
def arrayAt (depth : Nat) (items : List Document) : Document :=
  if depth < nestingLimit then .array items else .unreadable

/-- The document of a mapping that has `depth` others around it. -/
def objectAt (depth : Nat) (entries : Option (List (String × Document))) : Document :=
  match entries with
  | some entries => if depth < nestingLimit then .object entries else .unreadable
  | none => .unreadable

mutual

/-- The value at the front of a text, with `depth` sequences and mappings around it. -/
def readValue (fuel depth : Nat) (text : List Char) : Option (Document × List Char) :=
  match fuel with
  | 0 => none
  | fuel + 1 =>
    match skipBlanks text with
    | 'n' :: 'u' :: 'l' :: 'l' :: rest => some (.null, rest)
    | 't' :: 'r' :: 'u' :: 'e' :: rest => some (.bool true, rest)
    | 'f' :: 'a' :: 'l' :: 's' :: 'e' :: rest => some (.bool false, rest)
    | '"' :: rest => do
      let (text?, rest) ← readString rest
      some ((text?.map .string).getD .unreadable, rest)
    | '[' :: rest =>
      match skipBlanks rest with
      | ']' :: rest => some (arrayAt depth [], rest)
      | _ => do
        let (items, rest) ← readItems fuel (depth + 1) rest
        some (arrayAt depth items, rest)
    | '{' :: rest =>
      match skipBlanks rest with
      | '}' :: rest => some (objectAt depth (some []), rest)
      | _ => do
        let (entries, rest) ← readEntries fuel (depth + 1) rest
        some (objectAt depth entries, rest)
    | text => do
      let (literal, rest) ← readNumber text
      some ((literal.value?.map .number).getD .unreadable, rest)

/-- The items of a sequence up to its closing bracket. -/
def readItems (fuel depth : Nat) (text : List Char) : Option (List Document × List Char) :=
  match fuel with
  | 0 => none
  | fuel + 1 => do
    let (item, rest) ← readValue fuel depth text
    match skipBlanks rest with
    | ',' :: rest => do
      let (items, rest) ← readItems fuel depth rest
      some (item :: items, rest)
    | ']' :: rest => some ([item], rest)
    | _ => none

/-- The entries of a mapping up to its closing brace, `none` in their place if a key has half of a
surrogate pair. -/
def readEntries (fuel depth : Nat) (text : List Char) :
    Option (Option (List (String × Document)) × List Char) :=
  match fuel with
  | 0 => none
  | fuel + 1 =>
    match skipBlanks text with
    | '"' :: rest => do
      let (key?, rest) ← readString rest
      match skipBlanks rest with
      | ':' :: rest => do
        let (value, rest) ← readValue fuel depth rest
        let pair? := key?.map fun key ↦ (key, value)
        match skipBlanks rest with
        | ',' :: rest => do
          let (entries, rest) ← readEntries fuel depth rest
          some (pair?.bind fun entry ↦ entries.map (entry :: ·), rest)
        | '}' :: rest => some (pair?.map fun entry ↦ [entry], rest)
        | _ => none
      | _ => none
    | _ => none

end

/-- The document of a text, if the text is one value with nothing but blanks around it. -/
def parse? (text : String) : Option Document :=
  let chars := text.toList
  match readValue (2 * chars.length + 2) 0 chars with
  | some (document, rest) => if (skipBlanks rest).isEmpty then some document else none
  | none => none

end Document

/-- The value of a text. -/
def Tree.parse? (text : String) : Option Tree := (Document.parse? text).bind Document.tree?

end ActionTools
