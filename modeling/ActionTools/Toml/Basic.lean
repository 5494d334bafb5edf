/-!
# TOML values

The values of a configuration text. Floats and dates are kept as they are written: nothing here
computes with them, and a reader that refuses them need not know their value.
-/

namespace ActionTools

/-- A TOML value. -/
inductive Toml where
  | string (value : String)
  | integer (value : Int)
  | float (literal : String)
  | boolean (value : Bool)
  | dateTime (literal : String)
  | array (items : List Toml)
  | table (entries : List (String × Toml))

namespace Toml

instance : Inhabited Toml := ⟨table []⟩

/-- The text, when this is one. -/
def string? : Toml → Option String
  | string value => some value
  | _ => none

/-- The truth value, when this is one. -/
def bool? : Toml → Option Bool
  | boolean value => some value
  | _ => none

/-- Whether this is an array or a table with nothing in it. -/
def isEmpty : Toml → Bool
  | array [] => true
  | table [] => true
  | _ => false

end Toml

end ActionTools
