import ActionTools.Toml.Quoted
import ActionTools.Toml.Tables

/-!
# Reading TOML text

A text is a sequence of lines: blank ones, comments, headers and assignments. Each of these is read
and put into the table that the text has described so far (`Toml.parse?`); a text with a line that
cannot be read, or that would redefine something, has no value.

Values nest less than `nestingLimit` deep, and keys have fewer parts than that. The recursion is
bounded by fuel; `Toml.parse?` gives it more than any text can use.
-/

namespace ActionTools.Toml

/-- The bound for the nesting of values and for the parts of a key. -/
def nestingLimit : Nat := 80

/-! ### Blanks and line ends -/

/-- A text without the blanks at its front. -/
def skipBlanks (text : List Char) : List Char := text.dropWhile isBlank

/-- A text without the comment at its front. -/
def skipComment : List Char → List Char
  | '#' :: rest => rest.dropWhile isTextChar
  | text => text

/-- What follows a line on which there is nothing any more but blanks and a comment. -/
def readLineEnd? (text : List Char) : Option (List Char) :=
  match skipComment (skipBlanks text) with
  | [] => some []
  | rest => afterBreak? rest

/-- A text without the blanks, comments and line breaks at its front. -/
def skipLines (fuel : Nat) (text : List Char) : List Char :=
  match fuel with
  | 0 => text
  | fuel + 1 =>
    let rest := skipBlanks text
    match afterBreak? (skipComment rest) with
    | some rest => skipLines fuel rest
    | none => rest

/-! ### Keys -/

/-- Whether a character can stand in a key without quotes. -/
def isKeyChar (c : Char) : Bool := c.isAlphanum || c == '-' || c == '_'

/-- One part of a key. -/
def readKeyPart? (text : List Char) : Option (String × List Char) :=
  match text.takeWhile isKeyChar with
  | [] => readQuotedKey? text
  | name => some (String.ofList name, text.dropWhile isKeyChar)

/-- A key: parts with points between them. Blanks may be around each part. -/
def readKeyParts? (fuel : Nat) (text : List Char) : Option (List String × List Char) :=
  match fuel with
  | 0 => none
  | fuel + 1 => do
    let (part, rest) ← readKeyPart? (skipBlanks text)
    match skipBlanks rest with
    | '.' :: rest => do
      let (parts, rest) ← readKeyParts? fuel rest
      some (part :: parts, rest)
    | rest => some ([part], rest)

/-- A key, if it has not too many parts. -/
def readKey? (text : List Char) : Option (List String × List Char) := do
  let (parts, rest) ← readKeyParts? (text.length + 1) text
  if parts.length < nestingLimit then some (parts, rest) else none

/-! ### Values -/

/-- The scalar without quotes at the front of a text. A date takes in a time after a blank. -/
def readScalar? (text : List Char) : Option (Toml × List Char) :=
  let run := text.takeWhile isBareChar
  let rest := text.dropWhile isBareChar
  let alone := (scalar? run).map fun value ↦ (value, rest)
  match isDate run, rest with
  | true, ' ' :: more =>
    let time := more.takeWhile isBareChar
    if isZonedTime time then
      some (.dateTime (String.ofList (run ++ ' ' :: time)), more.dropWhile isBareChar)
    else alone
  | _, _ => alone

mutual

/-- The value at the front of a text, with `depth` arrays and inline tables around it. -/
def readValue? (fuel depth : Nat) (text : List Char) : Option (Toml × List Char) :=
  match fuel with
  | 0 => none
  | fuel + 1 =>
    match text with
    | '"' :: _ | '\'' :: _ => (readString? text).map fun (value, rest) ↦ (.string value, rest)
    | '[' :: rest =>
      if depth + 1 < nestingLimit then
        (readItems? fuel (depth + 1) rest).map fun (items, rest) ↦ (.array items, rest)
      else none
    | '{' :: rest =>
      if depth + 1 < nestingLimit then
        match skipBlanks rest with
        | '}' :: rest => some (.table [], rest)
        | rest => do
          let (assignments, rest) ← readAssignments? fuel (depth + 1) rest
          let table ← ofAssignments? assignments
          some (table, rest)
      else none
    | _ => readScalar? text

/-- The items of an array up to its closing bracket; a comma may follow the last one. -/
def readItems? (fuel depth : Nat) (text : List Char) : Option (List Toml × List Char) :=
  match fuel with
  | 0 => none
  | fuel + 1 =>
    match skipLines text.length text with
    | ']' :: rest => some ([], rest)
    | text => do
      let (item, rest) ← readValue? fuel depth text
      match skipLines rest.length rest with
      | ',' :: rest => do
        let (items, rest) ← readItems? fuel depth rest
        some (item :: items, rest)
      | ']' :: rest => some ([item], rest)
      | _ => none

/-- The assignments of an inline table up to its closing brace. -/
def readAssignments? (fuel depth : Nat) (text : List Char) :
    Option (List (List String × Toml) × List Char) :=
  match fuel with
  | 0 => none
  | fuel + 1 => do
    let (key, rest) ← readKey? text
    match rest with
    | '=' :: rest => do
      let (value, rest) ← readValue? fuel depth (skipBlanks rest)
      match skipBlanks rest with
      | ',' :: rest => do
        let (assignments, rest) ← readAssignments? fuel depth rest
        some ((key, value) :: assignments, rest)
      | '}' :: rest => some ([(key, value)], rest)
      | _ => none
    | _ => none

end

/-! ### Lines -/

/-- The tables described so far, and the header that assignments stand under. -/
structure Draft where
  root : Table
  header : List String

/-- Reads the rest of a table's header, from its key on. -/
def readTableHeader? (draft : Draft) (text : List Char) : Option (Draft × List Char) := do
  let (path, rest) ← readKey? text
  match rest with
  | ']' :: rest => do
    let root ← openTable path draft.root
    some (⟨root, path⟩, rest)
  | _ => none

/-- Reads the rest of an element's header, from its key on. -/
def readElementHeader? (draft : Draft) (text : List Char) : Option (Draft × List Char) := do
  let (path, rest) ← readKey? text
  match rest with
  | ']' :: ']' :: rest => do
    let root ← openElement path draft.root
    some (⟨root, path⟩, rest)
  | _ => none

/-- Reads an assignment. -/
def readAssignment? (draft : Draft) (text : List Char) : Option (Draft × List Char) := do
  let (path, rest) ← readKey? text
  match rest with
  | '=' :: rest => do
    let (value, rest) ← readValue? (2 * rest.length + 2) 0 (skipBlanks rest)
    let root ← assignUnder draft.header path value draft.root
    some ({ draft with root }, rest)
  | _ => none

/-- What the lines of a text describe, on top of a draft. -/
def readLines? (fuel : Nat) (draft : Draft) (text : List Char) : Option Draft :=
  match fuel with
  | 0 => none
  | fuel + 1 =>
    match skipBlanks text with
    | [] => some draft
    | '#' :: rest => do
      let rest ← readLineEnd? ('#' :: rest)
      readLines? fuel draft rest
    | '[' :: '[' :: rest => do
      let (draft, rest) ← readElementHeader? draft rest
      let rest ← readLineEnd? rest
      readLines? fuel draft rest
    | '[' :: rest => do
      let (draft, rest) ← readTableHeader? draft rest
      let rest ← readLineEnd? rest
      readLines? fuel draft rest
    | '\n' :: rest => readLines? fuel draft rest
    | '\r' :: '\n' :: rest => readLines? fuel draft rest
    | text => do
      let (draft, rest) ← readAssignment? draft text
      let rest ← readLineEnd? rest
      readLines? fuel draft rest

/-- The table of a text. A byte order mark before it does not count. -/
def parse? (text : String) : Option Toml :=
  let chars := match text.toList with
    | '\ufeff' :: rest => rest
    | chars => chars
  (readLines? (chars.length + 1) ⟨[], []⟩ chars).map fun draft ↦
    .table (Node.tomlEntries draft.root)

end ActionTools.Toml
