import RoundingPatch.Toml.Value
/-!
# Reading settings out of values

A record of settings is a table with a value for each key, or a list with the values in the order
of the keys. Keys that are absent keep their defaults, and keys that nobody knows are passed over.
-/

namespace RoundingPatch.Toml

/-- The settings of a record: for each key, with its position among the keys, its value. -/
abbrev Fields := Nat → String → Option Value

namespace Value

/-- The settings that a value holds. A date holds none. -/
def fields? : Value → Option Fields
  | table entries => some fun _ key => Table.get? entries key
  | list items => some fun position _ => items[position]?
  | date => some fun _ _ => none
  | _ => none

/-- The text that a value is. -/
def text? : Value → Option String
  | text s => some s
  | _ => none

/-- The truth value that a value is. -/
def boolean? : Value → Option Bool
  | boolean b => some b
  | _ => none

/-- The natural number that a value is. -/
def natural? : Value → Option Nat
  | integer n => if 0 ≤ n then some n.toNat else none
  | _ => none

/-- The name of a choice: a text, or the one key of a table that has nothing below it. -/
def choice? : Value → Option String
  | text s => some s
  | table [(name, table [])] => some name
  | table [(name, list [])] => some name
  | _ => none

end Value

/-- The setting of a key, or its default. -/
def Fields.getD (fields : Fields) (position : Nat) (key : String) (read : Value → Option α)
    (default : α) : Option α :=
  match fields position key with
  | none => some default
  | some value => read value

end RoundingPatch.Toml
