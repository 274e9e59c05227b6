import Selectivity.Binary64
import Selectivity.Json

/-! Reading JSON text. Each reader returns what it could make of the text and the
text that is left, or no rest once the text has stopped being JSON; after that
nothing more is read. -/

namespace Selectivity.Json.Reader

def blank (c : Char) : Bool := c == ' ' || c == '\t' || c == '\n' || c == '\r'

def skipBlank (text : List Char) : List Char := text.dropWhile blank

/-! ### Strings -/

def hexDigit? (c : Char) : Option Nat :=
  if c.isDigit then some (c.toNat - '0'.toNat)
  else if 'a' ≤ c ∧ c ≤ 'f' then some (c.toNat - 'a'.toNat + 10)
  else if 'A' ≤ c ∧ c ≤ 'F' then some (c.toNat - 'A'.toNat + 10)
  else none

/-- The UTF-16 unit written with four hexadecimal digits. -/
def unit? : List Char → Option (Nat × List Char)
  | a :: b :: c :: d :: rest => do
    let a ← hexDigit? a
    let b ← hexDigit? b
    let c ← hexDigit? c
    let d ← hexDigit? d
    some (((a * 16 + b) * 16 + c) * 16 + d, rest)
  | _ => none

def escaped? : Char → Option Char
  | '"' => some '"'
  | '\\' => some '\\'
  | '/' => some '/'
  | 'b' => some '\x08'
  | 'f' => some '\x0c'
  | 'n' => some '\n'
  | 'r' => some '\r'
  | 't' => some '\t'
  | _ => none

/-- One piece of a string: a character, or a UTF-16 unit from an escape. -/
inductive Piece where
  | char (c : Char)
  | unit (n : Nat)

/-- The pieces up to the closing quote. A control character must be escaped. -/
def pieces : Nat → List Piece → List Char → Option (List Piece × List Char)
  | 0, _, _ => none
  | _ + 1, done, '"' :: rest => some (done.reverse, rest)
  | fuel + 1, done, '\\' :: 'u' :: rest =>
    match unit? rest with
    | some (n, rest) => pieces fuel (.unit n :: done) rest
    | none => none
  | fuel + 1, done, '\\' :: c :: rest =>
    match escaped? c with
    | some c => pieces fuel (.char c :: done) rest
    | none => none
  | _ + 1, _, ['\\'] => none
  | fuel + 1, done, c :: rest =>
    if c.toNat < 0x20 then none else pieces fuel (.char c :: done) rest
  | _ + 1, _, [] => none

/-- Joins surrogate pairs. Half a pair has no character. -/
def assemble : List Piece → Option (List Char)
  | [] => some []
  | .char c :: rest => (assemble rest).map (c :: ·)
  | .unit n :: rest =>
    if n < 0xD800 ∨ 0xDFFF < n then (assemble rest).map (Char.ofNat n :: ·)
    else match rest with
      | .unit m :: rest =>
        if n < 0xDC00 ∧ 0xDC00 ≤ m ∧ m ≤ 0xDFFF then
          (assemble rest).map (Char.ofNat (0x10000 + (n - 0xD800) * 0x400 + (m - 0xDC00)) :: ·)
        else none
      | _ => none

/-- The string after an opening quote, if it has a value, and the rest. -/
def string? (text : List Char) : Option (Option String × List Char) :=
  (pieces (text.length + 1) [] text).map fun (found, rest) =>
    ((assemble found).map String.ofList, rest)

/-! ### Numbers -/

def digits (text : List Char) : List Char × List Char := text.span Char.isDigit

def value (digits : List Char) : Nat :=
  digits.foldl (fun n c => n * 10 + (c.toNat - '0'.toNat)) 0

/-- At least one digit, and no leading zero before another. -/
def whole? (text : List Char) : Option (List Char × List Char) :=
  match digits text with
  | ([], _) => none
  | ('0' :: _ :: _, _) => none
  | found => some found

def fraction? : List Char → Option (Option (List Char) × List Char)
  | '.' :: text =>
    match digits text with
    | ([], _) => none
    | (found, rest) => some (some found, rest)
  | text => some (none, text)

def signed? (text : List Char) : Option (Int × List Char) :=
  let (negative, text) := match text with
    | '-' :: rest => (true, rest)
    | '+' :: rest => (false, rest)
    | rest => (false, rest)
  match digits text with
  | ([], _) => none
  | (found, rest) => some (if negative then -(value found : Int) else value found, rest)

def exponent? : List Char → Option (Option Int × List Char)
  | 'e' :: text | 'E' :: text => (signed? text).map fun (exponent, rest) => (some exponent, rest)
  | text => some (none, text)

/-- The value of a literal. Only a literal without fraction and exponent is an
integer, and only within 64 bits; a minus sign before zero makes it a double. -/
def literal (negative : Bool) (integer : List Char) (fraction : Option (List Char))
    (exponent : Option Int) : Json :=
  let digits := value (integer ++ fraction.getD [])
  let scale := exponent.getD 0 - (fraction.getD []).length
  let integral := fraction.isNone && exponent.isNone
  if integral && !negative && digits < UInt64.size then .int digits
  else if integral && negative && 0 < digits && digits ≤ Nat.pow 2 63 then .int (-(digits : Int))
  else match Binary64.ofDecimal? negative digits scale with
    | some x => .float x
    | none => .unusable .null

def number? (text : List Char) : Option (Json × List Char) := do
  let (negative, text) := match text with
    | '-' :: rest => (true, rest)
    | rest => (false, rest)
  let (integer, text) ← whole? text
  let (fraction, text) ← fraction? text
  let (exponent, text) ← exponent? text
  some (literal negative integer fraction exponent, text)

/-! ### Values -/

/-- The deepest nesting that still has a value. -/
def maxDepth : Nat := 127

def container (depth : Nat) (value : Json) : Json :=
  if depth < maxDepth then value else .unusable value

def word (expected : List Char) (value : Json) (text : List Char) : Json × Option (List Char) :=
  if expected.isPrefixOf text then (value, some (text.drop expected.length)) else (.fault, none)

mutual
/-- A value inside `depth` containers. -/
def valueAt : Nat → Nat → List Char → Json × Option (List Char)
  | 0, _, _ => (.fault, none)
  | fuel + 1, depth, text =>
    match skipBlank text with
    | '[' :: rest =>
      match skipBlank rest with
      | ']' :: rest => (container depth (.array []), some rest)
      | rest =>
        let (items, rest) := itemsAt fuel (depth + 1) rest
        (container depth (.array items), rest)
    | '{' :: rest =>
      match skipBlank rest with
      | '}' :: rest => (container depth (.object []), some rest)
      | rest =>
        let (members, rest) := membersAt fuel (depth + 1) rest
        (container depth (if rest.isSome then .object members else .torn members), rest)
    | '"' :: rest =>
      match string? rest with
      | some (some found, rest) => (.string found, some rest)
      | some (none, rest) => (.unusable .null, some rest)
      | none => (.fault, none)
    | 'n' :: rest => word ['u', 'l', 'l'] .null rest
    | 't' :: rest => word ['r', 'u', 'e'] (.bool true) rest
    | 'f' :: rest => word ['a', 'l', 's', 'e'] (.bool false) rest
    | rest =>
      match number? rest with
      | some (found, rest) => (found, some rest)
      | none => (.fault, none)

/-- The items of an array that has at least one. -/
def itemsAt : Nat → Nat → List Char → List Json × Option (List Char)
  | 0, _, _ => ([.fault], none)
  | fuel + 1, depth, text =>
    match valueAt fuel depth text with
    | (item, none) => ([item], none)
    | (item, some rest) =>
      match skipBlank rest with
      | ']' :: rest => ([item], some rest)
      | ',' :: rest =>
        let (items, rest) := itemsAt fuel depth rest
        (item :: items, rest)
      | _ => ([item, .fault], none)

/-- The members of an object that has at least one. -/
def membersAt : Nat → Nat → List Char → List (String × Json) × Option (List Char)
  | 0, _, _ => ([], none)
  | fuel + 1, depth, text =>
    match skipBlank text with
    | '"' :: rest =>
      match string? rest with
      | some (some key, rest) =>
        match skipBlank rest with
        | ':' :: rest =>
          match valueAt fuel depth rest with
          | (member, none) => ([(key, member)], none)
          | (member, some rest) =>
            match skipBlank rest with
            | '}' :: rest => ([(key, member)], some rest)
            | ',' :: rest =>
              let (members, rest) := membersAt fuel depth rest
              ((key, member) :: members, rest)
            | _ => ([(key, member)], none)
        | _ => ([(key, .fault)], none)
      | _ => ([], none)
    | _ => ([], none)
end

end Reader

/-- The value at the start of a text; what follows it is left alone. -/
def read (text : String) : Json :=
  let chars := text.toList
  (Reader.valueAt (2 * chars.length + 2) 0 chars).1

/-- The value of a text that is one JSON document and nothing else. -/
def readDocument (text : String) : Json :=
  let chars := text.toList
  match Reader.valueAt (2 * chars.length + 2) 0 chars with
  | (found, some rest) => if (Reader.skipBlank rest).isEmpty then found else .fault
  | (_, none) => .fault

end Selectivity.Json
