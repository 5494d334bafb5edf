import ActionTools.Json.Printer
import ActionTools.Toml.Basic

/-!
# Writing TOML text

A string is written in the plainest of the four quoted forms that can hold it: a basic string if
nothing in it needs an escape, else a literal string, else one of these over lines. A string that
no form can hold as it is becomes a basic string with escapes, over lines when it has line breaks.
-/

namespace ActionTools.Toml

/-- The four ways to quote a string. -/
inductive Quotation where
  | basic
  | literal
  | basicLines
  | literalLines
  deriving DecidableEq

/-- The length of the longest run of a character. -/
def longestRun (mark : Char) (run : Nat) : List Char → Nat
  | [] => run
  | c :: rest =>
    if c = mark then longestRun mark (run + 1) rest else max run (longestRun mark 0 rest)

/-- Whether a character can only be written by an escape. -/
def needsEscape (c : Char) : Bool := (c.toNat < 0x20 && c != '\t' && c != '\n') || c.toNat == 0x7F

/-- The form in which a string is written. -/
def quotation (text : List Char) : Quotation :=
  let onLine := !text.contains '\n'
  let asIs := !text.any needsEscape
  let noBackslash := !text.contains '\\'
  if asIs && noBackslash && onLine && longestRun '"' 0 text = 0 then .basic
  else if asIs && onLine && longestRun '\'' 0 text = 0 then .literal
  else if asIs && noBackslash && longestRun '"' 0 text ≤ 2 then .basicLines
  else if asIs && longestRun '\'' 0 text ≤ 2 then .literalLines
  else if onLine then .basic
  else .basicLines

/-- A character other than a quote in a basic string. -/
def escapeChar (keepsBreaks : Bool) (c : Char) : List Char :=
  match c with
  | '\x08' => ['\\', 'b']
  | '\t' => ['\\', 't']
  | '\n' => if keepsBreaks then ['\n'] else ['\\', 'n']
  | '\x0c' => ['\\', 'f']
  | '\r' => ['\\', 'r']
  | '\\' => ['\\', '\\']
  | c =>
    if needsEscape c then
      ['\\', 'u', '0', '0', (Json.hexDigit (c.toNat / 16)).toUpper, (Json.hexDigit c.toNat).toUpper]
    else [c]

/-- The inside of a basic string. Over lines, up to two quotes in a row stand for themselves; `run`
counts those just before the text. -/
def basicChars (overLines : Bool) (run : Nat) : List Char → List Char
  | [] => []
  | '"' :: rest =>
    if overLines && run < 2 then '"' :: basicChars overLines (run + 1) rest
    else '\\' :: '"' :: basicChars overLines 0 rest
  | c :: rest => escapeChar overLines c ++ basicChars overLines 0 rest

/-- A string in quotes. -/
def quote (text : String) : List Char :=
  let chars := text.toList
  let opening := if chars.contains '\n' then ['\n'] else []
  match quotation chars with
  | .basic => '"' :: basicChars false 0 chars ++ ['"']
  | .literal => '\'' :: chars ++ ['\'']
  | .basicLines => ['"', '"', '"'] ++ opening ++ basicChars true 0 chars ++ ['"', '"', '"']
  | .literalLines => ['\'', '\'', '\''] ++ opening ++ chars ++ ['\'', '\'', '\'']

/-- The line of an assignment. -/
def assignmentLine (key : String) (value : String) : String := s!"{key} = {value}\n"

/-- A text as the value of an assignment. -/
def stringText (text : String) : String := String.ofList (quote text)

/-- A truth value as the value of an assignment. -/
def boolText (value : Bool) : String := if value then "true" else "false"

/-- A table under its header. -/
def tableText (name : String) (lines : List String) : String := s!"[{name}]\n{String.join lines}"

/-- Tables with a blank line between them. -/
def tablesText (tables : List String) : String := "\n".intercalate tables

end ActionTools.Toml
