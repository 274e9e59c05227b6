/-! JSON as far as a text can be read. A whole text gives an ordinary value; where
a text stops being JSON the value says so in place, so that a decoder working
through it from the left meets its first fault at the point a reader would. -/

namespace Selectivity

inductive Json where
  | null
  | bool (value : Bool)
  /-- An integer literal between `-2^63` and `2^64 - 1`. -/
  | int (value : Int)
  /-- Any other number. -/
  | float (value : Float)
  | string (value : String)
  | array (items : List Json)
  /-- Members in the order of the text, repeated keys included. -/
  | object (members : List (String × Json))
  /-- An object whose text breaks off before its next key. -/
  | torn (members : List (String × Json))
  /-- Well-formed text without a value: a number beyond the finite doubles, half
  a surrogate pair, or a container nested too deep. It may still be skipped. -/
  | unusable (inner : Json)
  /-- The text is not JSON from here on. -/
  | fault

namespace Json

/-- The number for a double; JSON has none for the rest, which are written as null. -/
def ofFloat (x : Float) : Json := if x.isFinite then .float x else .null

def ofNat (n : Nat) : Json := .int n

mutual
/-- No fault anywhere inside. -/
def whole : Json → Bool
  | .array items => wholeItems items
  | .object members => wholeMembers members
  | .unusable inner => whole inner
  | .torn _ | .fault => false
  | _ => true

def wholeItems : List Json → Bool
  | [] => true
  | item :: rest => whole item && wholeItems rest

def wholeMembers : List (String × Json) → Bool
  | [] => true
  | (_, value) :: rest => whole value && wholeMembers rest
end

mutual
/-- Whole, with a value for every part. -/
def usable : Json → Bool
  | .array items => usableItems items
  | .object members => usableMembers members
  | .unusable _ | .torn _ | .fault => false
  | _ => true

def usableItems : List Json → Bool
  | [] => true
  | item :: rest => usable item && usableItems rest

def usableMembers : List (String × Json) → Bool
  | [] => true
  | (_, value) :: rest => usable value && usableMembers rest
end

mutual
/-- The number of values inside, counting the value itself. -/
def size : Json → Nat
  | .array items => 1 + sizeItems items
  | .object members | .torn members => 1 + sizeMembers members
  | .unusable inner => 1 + size inner
  | _ => 1

def sizeItems : List Json → Nat
  | [] => 0
  | item :: rest => size item + sizeItems rest

def sizeMembers : List (String × Json) → Nat
  | [] => 0
  | (_, value) :: rest => size value + sizeMembers rest
end

/-- The first member of an object with the given key. -/
def get? (key : String) : Json → Option Json
  | .object members => members.lookup key
  | _ => none

end Json
end Selectivity
