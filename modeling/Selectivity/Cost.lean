import Selectivity.Quantity

/-! Costs of access paths. Costs add up, except that an infinite one, the largest
finite double, swallows whatever is added to it. -/

namespace Selectivity

structure Cost where
  total : Float

namespace Cost

def zero : Cost := ⟨0.0⟩

/-- The largest finite double stands for an infinite cost. -/
def infinite : Cost := ⟨Float.ofBits 0x7fefffffffffffff⟩

def isInfinite (c : Cost) : Bool := c.total == infinite.total

def add (a b : Cost) : Cost :=
  if a.isInfinite || b.isInfinite then infinite else ⟨a.total + b.total⟩

instance : Add Cost := ⟨add⟩

/-- Costs are the same when they differ by less than the spacing of doubles at one. -/
def same (a b : Cost) : Bool := (a.total - b.total).abs < Float.ofBits 0x3cb0000000000000

def compare? (a b : Cost) : Option Ordering :=
  if a.total < b.total then some .lt
  else if a.total == b.total then some .eq
  else if b.total < a.total then some .gt
  else none

end Cost
end Selectivity
