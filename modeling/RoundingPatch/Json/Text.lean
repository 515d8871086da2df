import RoundingPatch.Json.Value
/-!
# JSON text

A JSON value in writing: on one line without blanks, or with one entry per line and two blanks for
each level. Characters outside ASCII stand for themselves; of the others the quotation mark, the
backslash and the control characters are escaped. Every function adds to the text written so far.
-/

namespace RoundingPatch.Json

/-- A character inside a quoted text. -/
def escaped (c : Char) : String :=
  match c with
  | '"' => "\\\""
  | '\\' => "\\\\"
  | '\n' => "\\n"
  | '\r' => "\\r"
  | '\t' => "\\t"
  | '\x08' => "\\b"
  | '\x0c' => "\\f"
  | c => if c.toNat < 32 then "\\u" ++ Text.hex 4 c.toNat else c.toString

/-- Adds a text in quotation marks. -/
def addQuoted (written s : String) : String :=
  (s.foldl (fun written c => written ++ escaped c) (written.push '"')).push '"'

/-- How values are laid out: on one line, or on several lines from a level on. -/
inductive Layout
  | line
  | lines (level : Nat)

namespace Layout

/-- The layout of what is inside a value. -/
def inner : Layout → Layout
  | line => line
  | lines level => lines (level + 1)

/-- What stands before each entry and before the closing bracket. -/
def gap : Layout → String
  | line => ""
  | lines level => "\n" ++ String.ofList (List.replicate (2 * level) ' ')

/-- What stands between a key and its value. -/
def colon : Layout → String
  | line => ":"
  | lines _ => ": "

end Layout

/-- Adds a closing bracket. -/
def close (layout : Layout) (isEmpty : Bool) (written bracket : String) : String :=
  (if isEmpty then written else written ++ layout.gap) ++ bracket

mutual

/-- Adds a value. -/
def add (layout : Layout) (written : String) : Json → String
  | null => written ++ "null"
  | bool b => written ++ if b then "true" else "false"
  | int n => written ++ toString n
  | str s => addQuoted written s
  | arr items =>
    close layout items.isEmpty (addItems layout.inner true (written ++ "[") items) "]"
  | obj entries =>
    close layout entries.isEmpty (addEntries layout.inner true (written ++ "\x7b") entries) "\x7d"

/-- Adds the items of an array. -/
def addItems (layout : Layout) (first : Bool) (written : String) : List Json → String
  | [] => written
  | item :: rest =>
    let written := (if first then written else written ++ ",") ++ layout.gap
    addItems layout false (add layout written item) rest

/-- Adds the entries of an object. -/
def addEntries (layout : Layout) (first : Bool) (written : String) :
    List (String × Json) → String
  | [] => written
  | (key, value) :: rest =>
    let written := (if first then written else written ++ ",") ++ layout.gap
    addEntries layout false (add layout (addQuoted written key ++ layout.colon) value) rest

end

/-- A value on one line. -/
def compact (j : Json) : String :=
  add .line "" j

/-- A value on several lines. -/
def pretty (j : Json) : String :=
  add (.lines 0) "" j

end RoundingPatch.Json
