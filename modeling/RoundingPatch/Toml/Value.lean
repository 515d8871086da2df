/-!
# Settings files as values

A document of TOML is a table of values. Only texts, integers and truth values matter to this
library; numbers with a fraction and dates are recognised and carry nothing.
-/

namespace RoundingPatch.Toml

/-- A value in a document. -/
inductive Value
  | text (s : String)
  | integer (n : Int)
  | boolean (b : Bool)
  | fraction
  | date
  | list (items : List Value)
  | table (entries : List (String × Value))

/-- The entries of a table in order. -/
abbrev Table := List (String × Value)

/-- The value of a key. -/
def Table.get? (t : Table) (key : String) : Option Value :=
  (t.find? fun entry => entry.1 == key).map (·.2)

end RoundingPatch.Toml
