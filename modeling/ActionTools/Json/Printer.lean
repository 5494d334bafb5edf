import ActionTools.Json.Basic

/-!
# JSON text

A value has two texts. The compact one has no blanks. The pretty one puts every item and every entry
on a line of its own, two blanks deeper than its brackets, with a blank after each colon; an empty
sequence or mapping stays on its line. Both write the entries in their order.

In a string the quote, the backslash and the characters below U+0020 are escaped, the latter by
their short names where they have one and else by four lower-case hexadecimal digits. Everything
else stands for itself.
-/

namespace ActionTools.Json

/-! ### Strings -/

/-- A hexadecimal digit, in lower case. -/
def hexDigit (n : Nat) : Char := Nat.digitChar (n % 16)

/-- How a character is written inside a string. -/
def escape (c : Char) : List Char :=
  match c with
  | '"' => ['\\', '"']
  | '\\' => ['\\', '\\']
  | '\x08' => ['\\', 'b']
  | '\x0c' => ['\\', 'f']
  | '\n' => ['\\', 'n']
  | '\r' => ['\\', 'r']
  | '\t' => ['\\', 't']
  | c =>
    if c.toNat < 0x20 then ['\\', 'u', '0', '0', hexDigit (c.toNat / 16), hexDigit c.toNat]
    else [c]

/-- A string in quotes. -/
def quote (text : String) : List Char := '"' :: text.toList.flatMap escape ++ ['"']

/-! ### Compact text -/

mutual

/-- The text of a value without blanks. -/
def compactChars : Json → List Char
  | .null => ['n', 'u', 'l', 'l']
  | .bool true => ['t', 'r', 'u', 'e']
  | .bool false => ['f', 'a', 'l', 's', 'e']
  | .number value => value.chars
  | .string value => quote value
  | .array items => '[' :: compactItems items ++ [']']
  | .object entries => '{' :: compactEntries entries ++ ['}']

/-- Items separated by commas. -/
def compactItems : List Json → List Char
  | [] => []
  | [item] => item.compactChars
  | item :: rest => item.compactChars ++ ',' :: compactItems rest

/-- Entries separated by commas. -/
def compactEntries : List (String × Json) → List Char
  | [] => []
  | [(key, value)] => quote key ++ ':' :: value.compactChars
  | (key, value) :: rest => quote key ++ ':' :: value.compactChars ++ ',' :: compactEntries rest

end

/-- The compact text. -/
def compact (json : Json) : String := String.ofList json.compactChars

/-! ### Pretty text -/

/-- The start of a line at a nesting level. -/
def newline (level : Nat) : List Char := '\n' :: List.replicate (2 * level) ' '

mutual

/-- The text of a value, its inner lines indented for nesting level `level`. -/
def prettyChars (level : Nat) : Json → List Char
  | .null => ['n', 'u', 'l', 'l']
  | .bool true => ['t', 'r', 'u', 'e']
  | .bool false => ['f', 'a', 'l', 's', 'e']
  | .number value => value.chars
  | .string value => quote value
  | .array [] => ['[', ']']
  | .array items =>
    '[' :: newline (level + 1) ++ prettyItems (level + 1) items ++ newline level ++ [']']
  | .object [] => ['{', '}']
  | .object entries =>
    '{' :: newline (level + 1) ++ prettyEntries (level + 1) entries ++ newline level ++ ['}']

/-- Items on lines of their own. -/
def prettyItems (level : Nat) : List Json → List Char
  | [] => []
  | [item] => prettyChars level item
  | item :: rest => prettyChars level item ++ ',' :: newline level ++ prettyItems level rest

/-- Entries on lines of their own. -/
def prettyEntries (level : Nat) : List (String × Json) → List Char
  | [] => []
  | [(key, value)] => quote key ++ ':' :: ' ' :: prettyChars level value
  | (key, value) :: rest =>
    quote key ++ ':' :: ' ' :: prettyChars level value ++ ',' :: newline level ++
      prettyEntries level rest

end

/-- The pretty text. -/
def pretty (json : Json) : String := String.ofList (json.prettyChars 0)

/-- The pretty or the compact text. -/
def text (json : Json) (isPretty : Bool) : String := if isPretty then json.pretty else json.compact

end ActionTools.Json
