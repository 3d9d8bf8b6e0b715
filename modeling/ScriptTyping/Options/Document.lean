/-!
# Option documents

A strict reader for the documents that options are written in: objects, arrays, strings, numbers,
`true`, `false` and `null`, with blanks between them and nothing behind the value.  A string may
contain half of a surrogate pair; it is then a string without a text.

## Main definitions

* `Document` — a value as written.
* `Document.parse?` — reading a whole text.
-/

namespace ScriptTyping

/-- A value as written: numbers keep their digits, and objects all their entries in order. -/
inductive Document where
  | null
  | boolean (value : Bool)
  | number (digits : List Char)
  | string (text : Option String)
  | array (items : List Document)
  | object (entries : List (Option String × Document))
  deriving Inhabited

namespace Document

/-- Blanks between the parts of a document. -/
def isSpace (c : Char) : Bool := c == ' ' || c == '\n' || c == '\t' || c == '\r'

/-- Drops blanks. -/
def skipSpace (text : List Char) : List Char := text.dropWhile isSpace

/-- The value of a hexadecimal digit. -/
def hexDigit? (c : Char) : Option Nat :=
  if c.isDigit then some (c.toNat - '0'.toNat)
  else if 'a' ≤ c ∧ c ≤ 'f' then some (c.toNat - 'a'.toNat + 10)
  else if 'A' ≤ c ∧ c ≤ 'F' then some (c.toNat - 'A'.toNat + 10)
  else none

/-- The number that four hexadecimal digits denote. -/
def hexValue? (a b c d : Char) : Option Nat := do
  return (((← hexDigit? a) * 16 + (← hexDigit? b)) * 16 + (← hexDigit? c)) * 16 + (← hexDigit? d)

/-- The code that a single escaped character stands for. -/
def escaped? : Char → Option Nat
  | '"' => some 0x22
  | '\\' => some 0x5c
  | '/' => some 0x2f
  | 'b' => some 0x08
  | 'f' => some 0x0c
  | 'n' => some 0x0a
  | 'r' => some 0x0d
  | 't' => some 0x09
  | _ => none

/-- The codes of a string up to its closing quote, and the rest of the text.  A code may be half of
a surrogate pair. -/
def codes? : List Char → Option (List Nat × List Char)
  | [] => none
  | '"' :: rest => some ([], rest)
  | '\\' :: 'u' :: a :: b :: c :: d :: rest => do
    let code ← hexValue? a b c d
    let (codes, rest) ← codes? rest
    return (code :: codes, rest)
  | '\\' :: c :: rest => do
    let code ← escaped? c
    let (codes, rest) ← codes? rest
    return (code :: codes, rest)
  | c :: rest =>
    if c.toNat < 0x20 || c == '\\' then none
    else do
      let (codes, rest) ← codes? rest
      return (c.toNat :: codes, rest)

/-- The first half of a surrogate pair. -/
def isLeading (code : Nat) : Bool := 0xd800 ≤ code && code < 0xdc00

/-- The second half of a surrogate pair. -/
def isTrailing (code : Nat) : Bool := 0xdc00 ≤ code && code < 0xe000

/-- The characters that codes stand for: two halves of a surrogate pair make one character, and a
half alone makes none. -/
def decode? : List Nat → Option (List Char)
  | [] => some []
  | [code] => if isLeading code || isTrailing code then none else some [Char.ofNat code]
  | first :: second :: codes =>
    if isLeading first && isTrailing second then do
      let c := Char.ofNat (0x10000 + (first - 0xd800) * 0x400 + (second - 0xdc00))
      return c :: (← decode? codes)
    else if isLeading first || isTrailing first then none
    else do return Char.ofNat first :: (← decode? (second :: codes))

/-- A string behind its opening quote: its text, if it has one, and the rest. -/
def string? (text : List Char) : Option (Option String × List Char) := do
  let (codes, rest) ← codes? text
  return ((decode? codes).map String.ofList, rest)

/-- At least one digit. -/
def digits? (text : List Char) : Option (List Char × List Char) :=
  match text.takeWhile Char.isDigit with
  | [] => none
  | digits => some (digits, text.dropWhile Char.isDigit)

/-- The integral digits of a number: a single zero, or digits that start with another one. -/
def integral? (text : List Char) : Option (List Char × List Char) := do
  let (digits, rest) ← digits? text
  if digits.head? = some '0' ∧ digits.length ≠ 1 then none else return (digits, rest)

/-- The fractional part of a number, if there is a point. -/
def fraction? (text : List Char) : Option (List Char × List Char) :=
  match text with
  | '.' :: rest => do
    let (digits, rest) ← digits? rest
    return ('.' :: digits, rest)
  | _ => some ([], text)

/-- The exponent of a number, if there is one. -/
def exponent? (text : List Char) : Option (List Char × List Char) :=
  match text with
  | e :: rest =>
    if e == 'e' || e == 'E' then
      match rest with
      | '+' :: rest => do
        let (digits, rest) ← digits? rest
        return (e :: '+' :: digits, rest)
      | '-' :: rest => do
        let (digits, rest) ← digits? rest
        return (e :: '-' :: digits, rest)
      | _ => do
        let (digits, rest) ← digits? rest
        return (e :: digits, rest)
    else some ([], text)
  | [] => some ([], [])

/-- A number as written, and the rest. -/
def number? (text : List Char) : Option (List Char × List Char) := do
  let (sign, text) := match text with
    | '-' :: rest => (['-'], rest)
    | _ => ([], text)
  let (integral, text) ← integral? text
  let (fraction, text) ← fraction? text
  let (exponent, text) ← exponent? text
  return (sign ++ integral ++ fraction ++ exponent, text)

mutual

/-- A value behind blanks, and the rest. -/
def value? : Nat → List Char → Option (Document × List Char)
  | 0, _ => none
  | fuel + 1, text =>
    match skipSpace text with
    | 'n' :: 'u' :: 'l' :: 'l' :: rest => some (.null, rest)
    | 't' :: 'r' :: 'u' :: 'e' :: rest => some (.boolean true, rest)
    | 'f' :: 'a' :: 'l' :: 's' :: 'e' :: rest => some (.boolean false, rest)
    | '"' :: rest => (string? rest).map fun (text, rest) => (.string text, rest)
    | '[' :: rest =>
      match skipSpace rest with
      | ']' :: rest => some (.array [], rest)
      | rest => (items? fuel rest).map fun (items, rest) => (.array items, rest)
    | '\x7b' :: rest =>
      match skipSpace rest with
      | '\x7d' :: rest => some (.object [], rest)
      | rest => (entries? fuel rest).map fun (entries, rest) => (.object entries, rest)
    | rest => (number? rest).map fun (digits, rest) => (.number digits, rest)

/-- The items of an array up to its closing bracket, and the rest. -/
def items? : Nat → List Char → Option (List Document × List Char)
  | 0, _ => none
  | fuel + 1, text => do
    let (item, rest) ← value? fuel text
    match skipSpace rest with
    | ',' :: rest =>
      let (items, rest) ← items? fuel rest
      return (item :: items, rest)
    | ']' :: rest => return ([item], rest)
    | _ => none

/-- The entries of an object up to its closing brace, and the rest. -/
def entries? : Nat → List Char → Option (List (Option String × Document) × List Char)
  | 0, _ => none
  | fuel + 1, text => do
    match skipSpace text with
    | '"' :: rest =>
      let (key, rest) ← string? rest
      match skipSpace rest with
      | ':' :: rest =>
        let (value, rest) ← value? fuel rest
        match skipSpace rest with
        | ',' :: rest =>
          let (entries, rest) ← entries? fuel rest
          return ((key, value) :: entries, rest)
        | '\x7d' :: rest => return ([(key, value)], rest)
        | _ => none
      | _ => none
    | _ => none

end

/-- Reads a text that holds exactly one value.  Every step of the reader consumes a character, so
the length of the text bounds its depth. -/
def parse? (text : String) : Option Document := do
  let chars := text.toList
  let (document, rest) ← value? (2 * chars.length + 2) chars
  if (skipSpace rest).isEmpty then return document else none

end Document

end ScriptTyping
