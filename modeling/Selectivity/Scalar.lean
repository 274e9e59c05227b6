import Selectivity.Binary64.Shortest

/-! The constants that predicates compare with. Integers and floats are ordered
among each other by value; every other pair is comparable only within one type,
and the SQL null with nothing, itself included. -/

namespace Selectivity

inductive Scalar (α : Type) where
  | null
  | bool (value : Bool)
  | int (value : Int64)
  | float (value : α)
  | text (value : String)
  /-- Days since 1970-01-01. -/
  | date (days : Int32)

/-- The constants of predicates as they are stored and exchanged. -/
abbrev Value := Scalar Float

namespace Scalar

variable {α : Type} [Quantity α]

def isNull : Scalar α → Bool
  | .null => true
  | _ => false

def ofInt64 (i : Int64) : α := Quantity.ofInt i.toInt

/-- The order of two values, where there is one. Texts are ordered by code point. -/
def compare? : Scalar α → Scalar α → Option Ordering
  | .bool a, .bool b => some (compare a b)
  | .int a, .int b => some (compare a b)
  | .float a, .float b => some (Quantity.order a b)
  | .int a, .float b => some (Quantity.order (ofInt64 a) b)
  | .float a, .int b => some (Quantity.order a (ofInt64 b))
  | .text a, .text b => some (compare a b)
  | .date a, .date b => some (compare a b)
  | _, _ => none

/-- Equality in the sense of SQL: the integer 3 equals the float 3. -/
def equates (a b : Scalar α) : Bool := a.compare? b == some .eq

def precedes (a b : Scalar α) : Bool := a.compare? b == some .lt

def follows (a b : Scalar α) : Bool := a.compare? b == some .gt

/-- Equality as stored values: the types agree too, and null equals null. -/
def beq : Scalar α → Scalar α → Bool
  | .null, .null => true
  | .bool a, .bool b => a == b
  | .int a, .int b => a == b
  | .float a, .float b => Quantity.order a b == .eq
  | .text a, .text b => a == b
  | .date a, .date b => a == b
  | _, _ => false

instance : BEq (Scalar α) := ⟨beq⟩

/-- The place of a value on a numeric axis, to interpolate between bounds. -/
def position? : Scalar α → Option α
  | .int value => some (ofInt64 value)
  | .float value => some value
  | .date days => some (Quantity.ofInt days.toInt)
  | .bool value => some (if value then Quantity.one else Quantity.zero)
  | .null | .text _ => none

end Scalar

/-- A constant as SQL text. Quotes inside a text are not doubled. -/
def Scalar.render : Value → String
  | .null => "NULL"
  | .bool value => if value then "true" else "false"
  | .int value => toString value.toInt
  | .float value => Binary64.text value
  | .text value => "'" ++ value ++ "'"
  | .date days => "DATE " ++ toString days.toInt

end Selectivity
