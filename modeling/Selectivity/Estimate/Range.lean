import Selectivity.Statistics.Provider

/-! Ranges on one operand, as predicates narrow them. A side without a bound is
open, and a range open on a side can take in an excluded value at its edge. -/

namespace Selectivity

structure Range (α : Type) where
  start : Option (Bound α)
  stop : Option (Bound α)
  extrapolate : Bool

namespace Range

variable {α : Type}

/-- A range needs at least one bound. -/
def ofBounds (start stop : Option (Bound α)) (extrapolate : Bool) : Except EstimateError (Range α) :=
  if start.isNone && stop.isNone then .error .unboundedRange
  else .ok { start, stop, extrapolate }

def point (value : Scalar α) (extrapolate : Bool) : Range α :=
  { start := some ⟨value, true⟩, stop := some ⟨value, true⟩, extrapolate }

def above (bound : Bound α) (extrapolate : Bool) : Range α :=
  { start := some bound, stop := none, extrapolate }

def below (bound : Bound α) (extrapolate : Bool) : Range α :=
  { start := none, stop := some bound, extrapolate }

def closed (low high : Scalar α) (extrapolate : Bool) : Range α :=
  { start := some ⟨low, true⟩, stop := some ⟨high, true⟩, extrapolate }

def setStart (r : Range α) (bound : Bound α) : Range α := { r with start := some bound }

def setStop (r : Range α) (bound : Bound α) : Range α := { r with stop := some bound }

def includesStart (r : Range α) : Bool := r.start.any (·.inclusive)

def includesStop (r : Range α) : Bool := r.stop.any (·.inclusive)

def isOpenEnded (r : Range α) : Bool := r.start.isNone || r.stop.isNone

variable [Quantity α]

/-- Takes in `<> value` when the value sits on an edge of an open-ended range: on
its bound, or on the observed end of the side that has none. Counted on its own
besides the range, a frequent value at the edge would be taken away twice. -/
def absorb? (r : Range α) (value : Scalar α) (least greatest : Option (Scalar α)) : Option (Range α) :=
  if !r.isOpenEnded then none
  else if r.start.any (·.value.equates value) then
    some { r with start := r.start.map fun b => { b with inclusive := false } }
  else if r.stop.any (·.value.equates value) then
    some { r with stop := r.stop.map fun b => { b with inclusive := false } }
  else if r.start.isNone && least.any (·.equates value) then some (r.setStart ⟨value, false⟩)
  else if r.stop.isNone && greatest.any (·.equates value) then some (r.setStop ⟨value, false⟩)
  else none

end Range
end Selectivity
