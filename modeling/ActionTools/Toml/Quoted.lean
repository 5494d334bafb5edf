import ActionTools.Toml.Scalar

/-!
# Quoted text in TOML

A basic string is in quotes and has escapes, a literal string is in apostrophes and has none. Either
can be opened by three marks; then it runs over lines, a line break just after the opening does not
count, line breaks are kept as single line feeds, and up to two marks may stand anywhere, also just
before the closing ones. In a basic string of that kind a backslash at the end of a line takes away
all blanks and line breaks up to the next text.

Each reader starts after the opening marks and gives the text with what follows the closing ones.
-/

namespace ActionTools.Toml

/-- The two blanks within a line. -/
def isBlank (c : Char) : Bool := c == ' ' || c == '\t'

/-- Whether a character can stand for itself in a comment or a string. -/
def isTextChar (c : Char) : Bool := c == '\t' || (0x20 ≤ c.toNat && c.toNat != 0x7F)

/-- What follows a line break. -/
def afterBreak? : List Char → Option (List Char)
  | '\n' :: rest => some rest
  | '\r' :: '\n' :: rest => some rest
  | _ => none

/-- A text without a line break at its front. -/
def skipBreak (text : List Char) : List Char := (afterBreak? text).getD text

/-! ### Escapes -/

/-- The character whose code has the given hexadecimal digits. -/
def charOfHex? (digits : List Char) : Option Char := do
  let values ← digits.mapM (digitValue? 16)
  let code := ofDigits 16 values
  if code.isValidChar then some (Char.ofNat code) else none

/-- The character that a one-letter escape stands for. -/
def shortEscape? : Char → Option Char
  | 'b' => some '\x08'
  | 't' => some '\t'
  | 'n' => some '\n'
  | 'f' => some '\x0c'
  | 'r' => some '\r'
  | '"' => some '"'
  | '\\' => some '\\'
  | _ => none

/-- The character of the escape whose backslash is just before the text. -/
def readEscape? : List Char → Option (Char × List Char)
  | 'u' :: rest =>
    if (rest.take 4).length = 4 then
      (charOfHex? (rest.take 4)).map fun char ↦ (char, rest.drop 4)
    else none
  | 'U' :: rest =>
    if (rest.take 8).length = 8 then
      (charOfHex? (rest.take 8)).map fun char ↦ (char, rest.drop 8)
    else none
  | c :: rest => (shortEscape? c).map fun char ↦ (char, rest)
  | [] => none

/-! ### Strings on one line -/

/-- The rest of a literal string. -/
def readLiteral : List Char → Option (List Char × List Char)
  | [] => none
  | '\'' :: rest => some ([], rest)
  | c :: rest =>
    if isTextChar c then (readLiteral rest).map fun (text, rest) ↦ (c :: text, rest) else none

/-- The rest of a basic string. -/
def readBasic (fuel : Nat) (text : List Char) : Option (List Char × List Char) :=
  match fuel with
  | 0 => none
  | fuel + 1 =>
    match text with
    | [] => none
    | '"' :: rest => some ([], rest)
    | '\\' :: rest => do
      let (char, rest) ← readEscape? rest
      let (text, rest) ← readBasic fuel rest
      some (char :: text, rest)
    | c :: rest =>
      if isTextChar c then do
        let (text, rest) ← readBasic fuel rest
        some (c :: text, rest)
      else none

/-! ### Strings over lines -/

/-- The marks that belong to the text when three or more are at the front, and what follows the
closing ones. -/
def closing? (mark : Char) : List Char → Option (List Char × List Char)
  | a :: b :: c :: rest =>
    if a = mark ∧ b = mark ∧ c = mark then
      match rest with
      | d :: e :: rest' =>
        if d = mark ∧ e = mark then some ([mark, mark], rest')
        else if d = mark then some ([mark], e :: rest')
        else some ([], rest)
      | [d] => if d = mark then some ([mark], []) else some ([], rest)
      | [] => some ([], [])
    else none
  | _ => none

/-- The rest of a literal string over lines. -/
def readLiteralLines (fuel : Nat) (text : List Char) : Option (List Char × List Char) :=
  match fuel with
  | 0 => none
  | fuel + 1 =>
    match closing? '\'' text with
    | some closed => some closed
    | none =>
      match afterBreak? text with
      | some rest => (readLiteralLines fuel rest).map fun (text, rest) ↦ ('\n' :: text, rest)
      | none =>
        match text with
        | [] => none
        | c :: rest =>
          if isTextChar c then
            (readLiteralLines fuel rest).map fun (text, rest) ↦ (c :: text, rest)
          else none

/-- A text without the blanks and line breaks at its front. -/
def skipGap (fuel : Nat) (text : List Char) : List Char :=
  match fuel with
  | 0 => text
  | fuel + 1 =>
    let rest := text.dropWhile isBlank
    match afterBreak? rest with
    | some rest => skipGap fuel rest
    | none => rest

/-- The rest of a basic string over lines. -/
def readBasicLines (fuel : Nat) (text : List Char) : Option (List Char × List Char) :=
  match fuel with
  | 0 => none
  | fuel + 1 =>
    match closing? '"' text with
    | some closed => some closed
    | none =>
      match afterBreak? text with
      | some rest => (readBasicLines fuel rest).map fun (text, rest) ↦ ('\n' :: text, rest)
      | none =>
        match text with
        | [] => none
        | '\\' :: rest =>
          match afterBreak? (rest.dropWhile isBlank) with
          | some rest => readBasicLines fuel (skipGap rest.length rest)
          | none => do
            let (char, rest) ← readEscape? rest
            let (text, rest) ← readBasicLines fuel rest
            some (char :: text, rest)
        | c :: rest =>
          if isTextChar c then
            (readBasicLines fuel rest).map fun (text, rest) ↦ (c :: text, rest)
          else none

/-! ### Strings -/

/-- The string on one line at the front of a text, as a key can be. -/
def readQuotedKey? : List Char → Option (String × List Char)
  | '"' :: rest =>
    (readBasic (rest.length + 1) rest).map fun (text, rest) ↦ (String.ofList text, rest)
  | '\'' :: rest => (readLiteral rest).map fun (text, rest) ↦ (String.ofList text, rest)
  | _ => none

/-- The string at the front of a text. -/
def readString? : List Char → Option (String × List Char)
  | '"' :: '"' :: '"' :: rest =>
    (readBasicLines (rest.length + 1) (skipBreak rest)).map fun (text, rest) ↦
      (String.ofList text, rest)
  | '\'' :: '\'' :: '\'' :: rest =>
    (readLiteralLines (rest.length + 1) (skipBreak rest)).map fun (text, rest) ↦
      (String.ofList text, rest)
  | text => readQuotedKey? text

end ActionTools.Toml
