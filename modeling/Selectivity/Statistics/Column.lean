import Selectivity.Statistics.Histogram
import Selectivity.Statistics.Provider

/-! Statistics of one column and the fractions of rows read off them. Values are
taken to be spread evenly between the observed bounds, or inside the buckets of a
histogram; texts and other values off the numeric axis get a flat fallback. -/

namespace Selectivity

structure ColumnStats (α : Type) where
  distinct : α
  nullFraction : α
  least : Option (Scalar α) := none
  greatest : Option (Scalar α) := none
  histogram : Option (Histogram α) := none

namespace ColumnStats

variable {α : Type} [Quantity α]
open Quantity

def nonNull (c : ColumnStats α) : α := clamp (one - c.nullFraction)

/-- The share of the non-null rows that hold one particular value. -/
def valueShare (c : ColumnStats α) (value : Option α) : α :=
  let fromHistogram := do
    let h ← c.histogram
    h.valueFraction? (← value)
  fromHistogram.getD (one / larger c.distinct one)

/-- The fraction of rows that hold some value of the column, whichever it is. -/
def oneValue (c : ColumnStats α) : α := c.valueShare none * c.nonNull

/-- Beyond the observed bounds. -/
def misses (c : ColumnStats α) (value : Scalar α) : Bool :=
  c.least.any value.precedes || c.greatest.any value.follows

def point (c : ColumnStats α) (value : Scalar α) : α :=
  if value.isNull || c.misses value then zero
  else clamp (c.valueShare value.position? * c.nonNull)

/-- A numeric range, in the places of its bounds. -/
structure Span (α : Type) where
  start : Option α
  stop : Option α
  includeStart : Bool
  includeStop : Bool

/-- Takes one value's share away for an excluded bound between `low` and `high`. -/
def exclude (c : ColumnStats α) (low high fraction : α) (bound : Option α) (inclusive : Bool) : α :=
  match bound with
  | some at_ =>
    if !inclusive && le low at_ && le at_ high then fraction - c.valueShare (some at_) else fraction
  | none => fraction

/-- The share of `[first, last]` in a domain of the given width. A histogram is
consulted only inside the observed bounds `low` and `high`. -/
def coverage (c : ColumnStats α) (low high width first last : α) : α :=
  if le width zero then one
  else
    let even := (last - first) / width
    match c.histogram with
    | some h => if le low first && le last high then (h.rangeFraction? first last).getD even else even
    | none => even

/-- The fraction of rows in a range on the numeric axis. With extrapolation the
domain grows to the bounds asked for, and a range past it still gets one value. -/
def numericRange (c : ColumnStats α) (low high : α) (span : Span α) (extrapolate : Bool) : α :=
  let domainLow := if extrapolate then span.start.elim low (smaller low) else low
  let domainHigh := if extrapolate then span.stop.elim high (larger high) else high
  let first := span.start.elim domainLow (larger · domainLow)
  let last := span.stop.elim domainHigh (smaller · domainHigh)
  if lt last first then (if extrapolate then c.oneValue else zero)
  else
    let covered := c.coverage low high (domainHigh - domainLow) first last
    let fraction := c.exclude low high covered span.start span.includeStart
    let fraction := c.exclude low high fraction span.stop span.includeStop
    let found := clamp fraction * c.nonNull
    if le found zero && extrapolate then c.oneValue else found

/-- A range off the numeric axis: it misses the observed values, or it is unknown. -/
def otherRange (c : ColumnStats α) (fallback : α) (least greatest : Scalar α)
    (start stop : Option (Bound α)) (extrapolate : Bool) : α :=
  if start.any (·.value.follows greatest) || stop.any (·.value.precedes least) then
    if extrapolate then c.oneValue else zero
  else fallback * c.nonNull

/-- The place of a bound: `some none` for an open side, `none` off the axis. -/
def place? (bound : Option (Bound α)) : Option (Option α) :=
  match bound with
  | none => some none
  | some b => b.value.position?.map some

def range (c : ColumnStats α) (fallback : α) (start stop : Option (Bound α)) (extrapolate : Bool) : α :=
  match c.least, c.greatest with
  | some least, some greatest =>
    match least.position?, greatest.position?, place? start, place? stop with
    | some low, some high, some first, some last =>
      c.numericRange low high
        { start := first
          stop := last
          includeStart := start.any (·.inclusive)
          includeStop := stop.any (·.inclusive) } extrapolate
    | _, _, _, _ => c.otherRange fallback least greatest start stop extrapolate
  | _, _ => fallback * c.nonNull

end ColumnStats
end Selectivity
