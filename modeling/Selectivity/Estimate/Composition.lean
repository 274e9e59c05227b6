import Selectivity.Quantity

/-! Combining selectivities. Predicates on one table are rarely independent, so
from the most selective on, each further one counts with one more square root. -/

namespace Selectivity

variable {α : Type} [Quantity α]
open Quantity

/-- The square root, taken `level` times. -/
def dampen (value : α) : Nat → α
  | 0 => value
  | level + 1 => sqrt (dampen value level)

/-- The product of the sorted values from `level` on, multiplied into `total`. -/
def composeFrom (total : α) (level : Nat) : List α → α
  | [] => total
  | value :: rest => composeFrom (total * dampen value level) (level + 1) rest

/-- No selectivities select everything. -/
def compose (selectivities : List α) : α :=
  composeFrom one 0 ((selectivities.map clamp).mergeSort le)

end Selectivity
