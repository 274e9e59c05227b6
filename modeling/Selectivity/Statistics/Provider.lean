import Selectivity.Predicate

/-! What estimation asks about the operands of an access path. -/

namespace Selectivity

/-- An end of a range, and whether it belongs to the range. -/
structure Bound (α : Type) where
  value : Scalar α
  inclusive : Bool

structure Provider (α : Type) where
  /-- The fraction of rows between two bounds. A missing bound leaves its side
  open; with extrapolation the range may reach beyond what was observed. -/
  range : Operand → (start stop : Option (Bound α)) → (extrapolate : Bool) → α
  /-- The fraction of rows equal to a value. -/
  point : Operand → Scalar α → α
  nullFraction : Operand → α
  least : Operand → Option (Scalar α)
  greatest : Operand → Option (Scalar α)
  /-- Whether the answers rest on collected statistics. -/
  knows : Operand → Bool

end Selectivity
