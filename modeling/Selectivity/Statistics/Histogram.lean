import Selectivity.Quantity

/-! Histograms of a numeric column: buckets of rows between two inclusive bounds.
Rows and distinct values are taken to be spread evenly inside a bucket. -/

namespace Selectivity

structure Bucket (α : Type) where
  lower : α
  upper : α
  count : α
  distinct : α

structure Histogram (α : Type) where
  buckets : List (Bucket α)

namespace Bucket

variable {α : Type} [Quantity α]
open Quantity

/-- The rows of a bucket that fall in `[low, high]`, or nothing if it misses the bucket. -/
def overlap? (b : Bucket α) (low high : α) : Option α :=
  let first := larger low b.lower
  let last := smaller high b.upper
  if lt last first then none
  else
    let width := b.upper - b.lower
    if le width zero then some b.count
    else some (b.count * (last - first) / width)

def holds (b : Bucket α) (value : α) : Bool := le b.lower value && le value b.upper

end Bucket

namespace Histogram

variable {α : Type} [Quantity α]
open Quantity

def total (h : Histogram α) : α := h.buckets.foldl (fun sum b => sum + b.count) zero

def covered (h : Histogram α) (low high : α) : α :=
  h.buckets.foldl (fun sum b =>
    match b.overlap? low high with
    | some rows => sum + rows
    | none => sum) zero

/-- The share of rows in `[low, high]`; unknown when no rows are counted. -/
def rangeFraction? (h : Histogram α) (low high : α) : Option α :=
  if le h.total zero then none else some (clamp (h.covered low high / h.total))

/-- The share of rows equal to a value, if some bucket holds it. -/
def valueFraction? (h : Histogram α) (value : α) : Option α :=
  if le h.total zero then none
  else (h.buckets.find? (·.holds value)).map fun b => b.count / h.total / larger b.distinct one

end Histogram
end Selectivity
