/-! The arithmetic that statistics, selectivities and costs are computed in.
Every formula of the library is written once over `Quantity`; programs run it in
binary64, and an exact field may stand in where the rounding is not the point. -/

namespace Selectivity

class Quantity (α : Type) extends Add α, Sub α, Mul α, Div α where
  zero : α
  one : α
  /-- The quantity nearest to an integer. -/
  ofInt : Int → α
  /-- Numeric comparison; false as soon as a side is not a number. -/
  lt : α → α → Bool
  le : α → α → Bool
  /-- A total order that agrees with `lt` on numbers and puts anything else last. -/
  order : α → α → Ordering
  sqrt : α → α
  floor : α → α
  ceil : α → α

namespace Quantity

variable {α : Type} [Quantity α]

def ofNat (n : Nat) : α := ofInt n

/-- Numeric equality, so that nothing but a number equals itself. -/
def same (a b : α) : Bool := le a b && le b a

/-- The larger of two numbers. A side that is not a number yields to the other. -/
def larger (a b : α) : α :=
  if lt a b then b else if same a a then a else b

/-- The smaller of two numbers. A side that is not a number yields to the other. -/
def smaller (a b : α) : α :=
  if lt b a then b else if same a a then a else b

/-- The nearest point of the unit interval. -/
def clamp (a : α) : α :=
  if lt a zero then zero else if lt one a then one else a

def inUnit (a : α) : Bool := le zero a && le a one

def whole (a : α) : Bool := same (a - floor a) zero

end Quantity
end Selectivity
