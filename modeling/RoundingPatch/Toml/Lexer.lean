import RoundingPatch.Toml.Value
/-!
# The words of a settings file

Readers for blanks, comments, keys and the values without structure. Each takes characters off the
front of the input and fails if they do not fit.
-/

namespace RoundingPatch.Toml

/-- Reads off the front of some characters. -/
abbrev Lex := StateT (List Char) Option

/-! ### Characters -/

/-- Gives up. -/
def refuse : Lex α :=
  fun _ => none

/-- The next character, which stays. -/
def peek : Lex (Option Char) :=
  return (← get).head?

/-- The next character. -/
def next : Lex Char := do
  match ← get with
  | c :: rest => set rest; return c
  | [] => refuse

/-- A given character. -/
def expect (c : Char) : Lex Unit := do
  if (← next) ≠ c then refuse

/-- Whether the input starts with `word`, which is then taken. -/
def accept (word : String) : Lex Bool := do
  let s ← get
  if word.toList.isPrefixOf s then
    set (s.drop word.length)
    return true
  else return false

/-- Whether the input starts with one of `words`, which is then taken. -/
def acceptAny : List String → Lex Bool
  | [] => return false
  | word :: words => do
    if ← accept word then return true else acceptAny words

/-- The longest run of characters that satisfy `p`. -/
def run (p : Char → Bool) : Lex (List Char) := do
  let s ← get
  set (s.dropWhile p)
  return s.takeWhile p

/-- Whether a character is a decimal digit. -/
def isDigit (c : Char) : Bool :=
  '0' ≤ c && c ≤ '9'

/-- Whether a character lies outside of ASCII. -/
def isForeign (c : Char) : Bool :=
  0x80 ≤ c.toNat

/-- Whether a character may stand in a comment. -/
def isCommentChar (c : Char) : Bool :=
  c = '\t' || (0x20 ≤ c.toNat && c.toNat ≤ 0x7e) || isForeign c

/-- Spaces and tabs. -/
def blanks : Lex Unit :=
  discard (run fun c => c = ' ' || c = '\t')

/-- A line break, if there is one. -/
def lineBreak : Lex Bool := do
  if ← accept "\n" then return true else accept "\r\n"

/-- A comment, if there is one. -/
def comment : Lex Unit := do
  if ← accept "#" then discard (run isCommentChar)

/-- What may follow a complete line: blanks, a comment, and the end of the line or of the input. -/
def lineEnd : Lex Unit := do
  blanks
  comment
  if (← get).isEmpty then return
  if !(← lineBreak) then refuse

/-- Blanks, comments and line breaks, at most `fuel` of them. -/
def gap : (fuel : Nat) → Lex Unit
  | 0 => refuse
  | fuel + 1 => do
    blanks
    comment
    if ← lineBreak then gap fuel

/-! ### Texts -/

/-- The number that `count` hexadecimal digits stand for. -/
def hexNumber : (count : Nat) → (value : Nat) → Lex Nat
  | 0, value => return value
  | count + 1, value => do
    let c ← next
    if isDigit c then hexNumber count (value * 16 + (c.toNat - 48))
    else if 'a' ≤ c && c ≤ 'f' then hexNumber count (value * 16 + (c.toNat - 87))
    else if 'A' ≤ c && c ≤ 'F' then hexNumber count (value * 16 + (c.toNat - 55))
    else refuse

/-- The character with a number of `count` hexadecimal digits. -/
def numbered (count : Nat) : Lex Char := do
  let n ← hexNumber count 0
  if n < 0xd800 ∨ (0xe000 ≤ n ∧ n ≤ 0x10ffff) then return Char.ofNat n else refuse

/-- The character that an escape stands for, after its backslash. -/
def escape : Lex Char := do
  match ← next with
  | 'b' => return '\x08'
  | 't' => return '\t'
  | 'n' => return '\n'
  | 'f' => return '\x0c'
  | 'r' => return '\r'
  | '"' => return '"'
  | '\\' => return '\\'
  | 'u' => numbered 4
  | 'U' => numbered 8
  | _ => refuse

/-- The rest of a text on one line between marks `mark`. Only text in double marks has escapes. -/
def lineText (mark : Char) : (fuel : Nat) → (done : List Char) → Lex String
  | 0, _ => refuse
  | fuel + 1, done => do
    let c ← next
    if c = mark then return String.ofList done.reverse
    else if c = '\\' ∧ mark = '"' then
      let c ← escape
      lineText mark fuel (c :: done)
    else if isCommentChar c then lineText mark fuel (c :: done)
    else refuse

/-- Takes every blank and line break, at most `fuel` line breaks. -/
def allBlanks : (fuel : Nat) → Lex Unit
  | 0 => return
  | fuel + 1 => do
    blanks
    if ← lineBreak then allBlanks fuel

/-- What follows a backslash at the end of a line: blanks, a line break, and more of both. -/
def joinLines (fuel : Nat) : Lex Bool := do
  let s ← get
  blanks
  if ← lineBreak then
    allBlanks fuel
    return true
  else
    set s
    return false

/-- The rest of a text over several lines between triple marks. Up to two marks may stand before
the closing ones. -/
def blockText (mark : Char) : (fuel : Nat) → (done : List Char) → Lex String
  | 0, _ => refuse
  | fuel + 1, done => do
    if ← lineBreak then blockText mark fuel ('\n' :: done)
    else
      let s ← get
      let marks := (s.takeWhile (· = mark)).length
      if 3 ≤ marks then
        let extra := min (marks - 3) 2
        set (s.drop (3 + extra))
        return String.ofList (List.replicate extra mark ++ done).reverse
      else
        let c ← next
        if c = '\\' ∧ mark = '"' then
          if ← joinLines fuel then blockText mark fuel done
          else
            let c ← escape
            blockText mark fuel (c :: done)
        else if isCommentChar c then blockText mark fuel (c :: done)
        else refuse

/-- A text between marks `mark`, which come next. -/
def quotedText (mark : Char) (blocks : Bool) : Lex String := do
  let fuel := (← get).length
  if ← (if blocks then accept (String.ofList [mark, mark, mark]) else pure false) then
    let _ ← lineBreak
    blockText mark fuel []
  else
    expect mark
    lineText mark fuel []

/-! ### Keys -/

/-- Whether a character may stand in a key without marks. -/
def isKeyChar (c : Char) : Bool :=
  isDigit c || ('a' ≤ c && c ≤ 'z') || ('A' ≤ c && c ≤ 'Z') || c = '_' || c = '-'

/-- One part of a key. -/
def keyPart : Lex String := do
  match ← peek with
  | some '"' => quotedText '"' false
  | some '\'' => quotedText '\'' false
  | _ =>
    let name ← run isKeyChar
    if name.isEmpty then refuse else return String.ofList name

/-- How deep values may be nested, and how many parts a key may have: fewer than this. -/
def depthLimit : Nat := 80

/-- The parts of a key between points, at most `fuel` of them. -/
def keyParts : (fuel : Nat) → Lex (List String)
  | 0 => refuse
  | fuel + 1 => do
    blanks
    let part ← keyPart
    blanks
    if ← accept "." then
      let rest ← keyParts fuel
      return part :: rest
    else return [part]

/-- A key. -/
def keyPath : Lex (List String) :=
  keyParts (depthLimit - 1)

/-! ### Numbers and dates -/

/-- The longest run of digits at the front, single underscores between them allowed, and the
rest. -/
def splitDigits (isDigit : Char → Bool) : List Char → List Char × List Char
  | [] => ([], [])
  | [c] => if isDigit c then ([c], []) else ([], [c])
  | c :: '_' :: d :: rest =>
    if isDigit c then
      if isDigit d then
        let (digits, rest) := splitDigits isDigit (d :: rest)
        (c :: digits, rest)
      else ([c], '_' :: d :: rest)
    else ([], c :: '_' :: d :: rest)
  | c :: d :: rest =>
    if isDigit c then
      let (digits, rest) := splitDigits isDigit (d :: rest)
      (c :: digits, rest)
    else ([], c :: d :: rest)

/-- The value of a digit in any base up to sixteen. -/
def digitValue (c : Char) : Nat :=
  if isDigit c then c.toNat - 48 else if 'a' ≤ c then c.toNat - 87 else c.toNat - 55

/-- The number that digits stand for in a base. -/
def valueOf (base : Nat) (digits : List Char) : Nat :=
  digits.foldl (fun n c => n * base + digitValue c) 0

/-- An integer, which has to fit 64 bits. -/
def bounded (n : Int) : Lex Value :=
  if -9223372036854775808 ≤ n ∧ n ≤ 9223372036854775807 then return .integer n else refuse

/-- Whether a character is a digit in base sixteen. -/
def isHexDigit (c : Char) : Bool :=
  isDigit c || ('a' ≤ c && c ≤ 'f') || ('A' ≤ c && c ≤ 'F')

/-- An integer in base `base`, after its mark. -/
def basedInteger (base : Nat) (isDigit : Char → Bool) : Lex Value := do
  let (digits, rest) := splitDigits isDigit (← get)
  if digits.isEmpty then refuse
  set rest
  bounded (valueOf base digits)

/-- Digits, at least one of them. -/
def someDigits : Lex (List Char) := do
  let (digits, rest) := splitDigits isDigit (← get)
  if digits.isEmpty then refuse
  set rest
  return digits

/-- A sign, if there is one; says whether it is a minus. -/
def sign : Lex Bool := do
  if ← accept "-" then return true
  discard (accept "+")
  return false

/-- The exponent of a number, if there is one. -/
def exponent : Lex (Option Int) := do
  if ← acceptAny ["e", "E"] then
    let negative ← sign
    let n := valueOf 10 (← someDigits)
    return some (if negative then -(n : Int) else n)
  else return none

/-- The least number that is infinite when it is rounded to 64 bits: half a place above the largest
finite one. -/
def infiniteFrom : Nat := Nat.pow 2 1024 - Nat.pow 2 970

/-- Whether `n * 10 ^ exponent` is so large that it is infinite in 64 bits. That can only be a
question for numbers of 309 digits before the point. -/
def isInfinite (n : Nat) (exponent : Int) : Bool :=
  let places := (Nat.toDigits 10 n).length + exponent
  if n = 0 ∨ places < 309 then false
  else if 309 < places then true
  else infiniteFrom * Nat.pow 10 (-exponent).toNat ≤ n * Nat.pow 10 exponent.toNat

/-- A number in base ten, with or without a fraction. Digits never denote an infinity, unless a
negative one. -/
def decimal : Lex Value := do
  let negative ← sign
  if ← acceptAny ["inf", "nan"] then return .fraction
  let whole ← if ← accept "0" then pure ['0'] else someDigits
  let part ← if ← accept "." then someDigits else pure []
  match part, ← exponent with
  | [], none =>
    let n := valueOf 10 whole
    bounded (if negative then -(n : Int) else n)
  | _, scale =>
    if !negative && isInfinite (valueOf 10 (whole ++ part)) (scale.getD 0 - part.length) then refuse
    return .fraction

/-- A number of exactly `count` digits between two limits. -/
def fixedNumber (count low high : Nat) : Lex Nat := do
  let s ← get
  let digits := s.take count
  if digits.length ≠ count || !digits.all isDigit then refuse
  set (s.drop count)
  let n := valueOf 10 digits
  if low ≤ n ∧ n ≤ high then return n else refuse

/-- The number of days of a month. -/
def daysIn (year month : Nat) : Nat :=
  if month = 2 then
    if year % 4 = 0 ∧ (year % 100 ≠ 0 ∨ year % 400 = 0) then 29 else 28
  else if [4, 6, 9, 11].contains month then 30 else 31

/-- A time of day. -/
def clock : Lex Unit := do
  let _ ← fixedNumber 2 0 23
  expect ':'
  let _ ← fixedNumber 2 0 59
  expect ':'
  let _ ← fixedNumber 2 0 60
  if ← accept "." then
    if (← run isDigit).isEmpty then refuse

/-- The distance of a time zone, if there is one. -/
def zone : Lex Unit := do
  if ← acceptAny ["Z", "z"] then return
  if ← acceptAny ["+", "-"] then
    let _ ← fixedNumber 2 0 23
    expect ':'
    let _ ← fixedNumber 2 0 59

/-- What `r` reads, or nothing and no change. -/
def attempt (r : Lex α) : Lex (Option α) := fun s =>
  match r s with
  | some (a, rest) => some (some a, rest)
  | none => some (none, s)

/-- A date, with or without a time of day. -/
def date : Lex Value := do
  let year ← fixedNumber 4 0 9999
  expect '-'
  let month ← fixedNumber 2 1 12
  expect '-'
  let _ ← fixedNumber 2 1 (daysIn year month)
  let _ ← attempt do
    let c ← next
    if c ≠ 'T' ∧ c ≠ 't' ∧ c ≠ ' ' then refuse
    clock
    zone
  return .date

/-- Whether a date or a time of day comes next. -/
def startsDate (s : List Char) : Bool :=
  let looksLike (count : Nat) (mark : Char) :=
    (s.take count).length = count && (s.take count).all isDigit && (s.drop count).head? = some mark
  looksLike 4 '-' || looksLike 2 ':'

/-- A number or a date. -/
def numberOrDate : Lex Value := do
  let s ← get
  if startsDate s then
    if (s.drop 2).head? = some ':' then
      clock
      return .date
    else date
  else if ← accept "0x" then basedInteger 16 isHexDigit
  else if ← accept "0o" then basedInteger 8 fun c => '0' ≤ c && c ≤ '7'
  else if ← accept "0b" then basedInteger 2 fun c => c = '0' || c = '1'
  else decimal

end RoundingPatch.Toml
