import RoundingPatch.Toml.Lexer
/-!
# Reading settings files

A document is read line by line. Every table remembers how it came to be, because a table may be
opened by its header once, and only tables that came from dotted keys may grow by dotted keys. A
key that is set twice refuses the document.
-/

namespace RoundingPatch.Toml

/-! ### Values -/

/-- How a table came to be. -/
inductive Origin
  /-- By its own header, or written out in full. -/
  | header
  /-- As the holder of a table with a longer name. -/
  | implied
  /-- By a dotted key. -/
  | dotted
  deriving DecidableEq

/-- A part of a document while it is being read. -/
inductive Node
  | leaf (value : Value)
  | table (origin : Origin) (entries : List (String × Node))
  /-- The tables of repeated headers, the last one first. -/
  | series (tables : List (List (String × Node)))

/-- The entries of a table while it is being read. -/
abbrev Entries := List (String × Node)

namespace Entries

/-- The node of a key. -/
def get? (t : Entries) (key : String) : Option Node :=
  (t.find? fun entry => entry.1 == key).map (·.2)

/-- Gives a key a node, in the place of the one it has. -/
def set (t : Entries) (key : String) (node : Node) : Entries :=
  if (t.get? key).isSome then t.map fun entry => if entry.1 == key then (key, node) else entry
  else t ++ [(key, node)]

/-- Takes a key out. -/
def erase (t : Entries) (key : String) : Entries :=
  t.filter fun entry => entry.1 != key

end Entries

/-- Changes the table that the parts of a key lead to. Tables on the way that are missing come to
be with origin `made`. With dotted keys no table that has a header of its own lies on the way.
`change` also gets the origin of the table it is given. -/
def within (made : Origin) (change : Origin → Entries → Option Entries) :
    (path : List String) → Origin → Entries → Option Entries
  | [], origin, t => change origin t
  | key :: path, _, t =>
    match t.get? key with
    | none => do
      let inner ← within made change path made []
      return t.set key (.table made inner)
    | some (.leaf _) => none
    | some (.table origin entries) =>
      if made = .dotted ∧ origin = .header then none
      else do
        let inner ← within made change path origin entries
        return t.set key (.table origin inner)
    | some (.series []) => none
    | some (.series (last :: before)) => do
      let inner ← within made change path .header last
      return t.set key (.series (inner :: before))

/-- Sets a key, dotted or not, of a table. -/
def assign (t : Entries) (path : List String) (node : Node) : Option Entries :=
  match path.reverse with
  | [] => none
  | key :: holders =>
    within .dotted
      (fun origin inner =>
        if !holders.isEmpty && origin ≠ .dotted then none
        else if (Entries.get? inner key).isSome then none
        else some (inner ++ [(key, node)]))
      holders.reverse .header t

mutual

/-- The value of a node that is complete. -/
def Node.value : Node → Value
  | .leaf value => value
  | .table _ entries => .table (entryValues entries)
  | .series tables => .list (tableValues tables).reverse

/-- The values of some entries. -/
def entryValues : List (String × Node) → List (String × Value)
  | [] => []
  | (key, node) :: rest => (key, node.value) :: entryValues rest

/-- The values of some tables. -/
def tableValues : List (List (String × Node)) → List Value
  | [] => []
  | t :: rest => .table (entryValues t) :: tableValues rest

end

mutual

/-- Reads a value inside of `depth` others. Every level of nesting and every item takes one unit of
`fuel`. -/
def readValue : (fuel depth : Nat) → Lex Value
  | 0, _ => refuse
  | fuel + 1, depth => do
    match ← peek with
    | some '"' => return .text (← quotedText '"' true)
    | some '\'' => return .text (← quotedText '\'' true)
    | some '[' => do
      expect '['
      if depthLimit ≤ depth + 1 then refuse
      return .list (← readItems fuel (depth + 1))
    | some '\x7b' => do
      expect '\x7b'
      if depthLimit ≤ depth + 1 then refuse
      blanks
      if ← accept "\x7d" then return .table []
      return .table (entryValues (← readPairs fuel (depth + 1) []))
    | some 't' => if ← accept "true" then return .boolean true else refuse
    | some 'f' => if ← accept "false" then return .boolean false else refuse
    | _ => numberOrDate

/-- Reads the items of a list up to its closing bracket. -/
def readItems : (fuel depth : Nat) → Lex (List Value)
  | 0, _ => refuse
  | fuel + 1, depth => do
    gap (fuel + 1)
    if ← accept "]" then return []
    let item ← readValue fuel depth
    gap (fuel + 1)
    if ← accept "," then
      let rest ← readItems fuel depth
      return item :: rest
    else
      expect ']'
      return [item]

/-- Reads the pairs of a table in one line up to its closing brace. -/
def readPairs : (fuel depth : Nat) → Entries → Lex Entries
  | 0, _, _ => refuse
  | fuel + 1, depth, t => do
    let path ← keyPath
    expect '='
    blanks
    let value ← readValue fuel depth
    blanks
    match assign t path (.leaf value) with
    | none => refuse
    | some t =>
      if ← accept "," then readPairs fuel depth t
      else
        expect '\x7d'
        return t

end

/-! ### Documents -/

/-- A document while it is being read: the table the current header names, if there is one, and
everything else. -/
structure Draft where
  root : Entries := []
  /-- The name of the current table; the root has none. -/
  path : List String := []
  /-- Whether the current table is one of a series. -/
  repeated : Bool := false
  current : Entries := []

namespace Draft

/-- Puts the current table in its place. -/
def close (d : Draft) : Option Entries :=
  match d.path.reverse with
  | [] => some d.current
  | key :: holders =>
    within .implied
      (fun _ t =>
        if d.repeated then
          match Entries.get? t key with
          | none => some (Entries.set t key (.series [d.current]))
          | some (.series tables) => some (Entries.set t key (.series (d.current :: tables)))
          | some _ => none
        else
          match Entries.get? t key with
          | none => some (Entries.set t key (.table .header d.current))
          | some (.table .implied _) => some (Entries.set t key (.table .header d.current))
          | some _ => none)
      holders.reverse .header d.root

/-- The node at a name, tables on the way taken as they are. -/
def find? : (path : List String) → Entries → Option Node
  | [], _ => none
  | [key], t => Entries.get? t key
  | key :: path, t =>
    match Entries.get? t key with
    | some (.table _ entries) => find? path entries
    | some (.series (last :: _)) => find? path last
    | _ => none

/-- Opens the table of a header. -/
def openTable (d : Draft) (path : List String) : Option Draft := do
  let root ← d.close
  match path.reverse with
  | [] => none
  | key :: holders =>
    let holders := holders.reverse
    let current ← match find? path root with
      | none => some []
      | some (.table .implied entries) => some entries
      | some _ => none
    let root ← within .implied (fun _ t => some (Entries.erase t key)) holders .header root
    return { root, path, current }

/-- Opens the next table of a series. -/
def openSeries (d : Draft) (path : List String) : Option Draft := do
  let root ← d.close
  match path.reverse with
  | [] => none
  | key :: holders =>
    let root ← within .implied
      (fun _ t =>
        match Entries.get? t key with
        | none => some (Entries.set t key (.series []))
        | some (.series _) => some t
        | some _ => none)
      holders.reverse .header root
    return { root, path, repeated := true }

/-- The value of a step that may be refused. -/
def ofOption : Option α → Lex α
  | some a => return a
  | none => refuse

/-- Reads one line. -/
def readLine (d : Draft) : Lex Draft := do
  blanks
  let fuel := (← get).length + 1
  if ← accept "[[" then
    let path ← keyPath
    if !(← accept "]]") then refuse
    lineEnd
    ofOption (d.openSeries path)
  else if ← accept "[" then
    let path ← keyPath
    expect ']'
    lineEnd
    ofOption (d.openTable path)
  else match ← peek with
    | none | some '#' | some '\n' | some '\r' => do
      lineEnd
      return d
    | some _ => do
      let path ← keyPath
      expect '='
      blanks
      let value ← readValue fuel 0
      lineEnd
      let current ← ofOption (assign d.current path (.leaf value))
      return { d with current }

/-- Reads lines to the end of the input, at most `fuel` of them. -/
def readLines : (fuel : Nat) → Draft → Lex Draft
  | 0, d => return d
  | fuel + 1, d => do
    if (← get).isEmpty then return d
    readLines fuel (← readLine d)

end Draft

/-- The table that a document describes. -/
def parse? (s : String) : Option Table := do
  let chars := match s.toList with
    | '\ufeff' :: rest => rest
    | chars => chars
  let (draft, _) ← (Draft.readLines (chars.length + 1) {}).run chars
  let entries ← draft.close
  return entryValues entries

end RoundingPatch.Toml
