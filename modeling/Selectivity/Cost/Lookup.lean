import Selectivity.Settings

/-! The price of looking up base rows through an index that does not cover the
query. Rows travel in batches, several in flight at once. What is left over after
the whole batches is charged as one more batch, unless the batches do not divide
evenly among those in flight: then the last group carries it. -/

namespace Selectivity

structure LookupModel (α : Type) where
  batchRows : Nat
  concurrentBatches : Nat
  oltpRowCost : α
  olapRowCost : α
  olapStartupCost : α

namespace LookupModel

variable {α : Type} [Quantity α]
open Quantity

def ofSettings (s : Settings α) : LookupModel α :=
  { batchRows := s.batchRows
    concurrentBatches := s.concurrentBatches
    oltpRowCost := s.oltpRowCost
    olapRowCost := s.olapRowCost
    olapStartupCost := s.olapStartupCost }

/-- Batches one after the other. `rows` fills at least one of them. -/
def serial (m : LookupModel α) (rows batch whole fixed : α) : α :=
  let oneBatch := batch * m.oltpRowCost + fixed
  let groups := larger (whole / ofNat (Nat.max m.concurrentBatches 1)) one
  if Quantity.whole groups then
    let leftover := rows - whole * batch
    groups * oneBatch + if lt zero leftover then leftover * m.oltpRowCost + fixed else zero
  else ceil groups * oneBatch

/-- A single row and the OLAP engine do not batch. -/
def cost (m : LookupModel α) (rows openLatency closeLatency : α) (olap : Bool) : α :=
  if le rows zero then zero
  else
    let fixed := openLatency + closeLatency
    if olap then rows * m.olapRowCost + fixed + m.olapStartupCost
    else if same rows one then rows * m.oltpRowCost + fixed + zero
    else
      let batch : α := ofNat (Nat.max m.batchRows 1)
      let whole := floor (rows / batch)
      if same whole zero then rows * m.oltpRowCost + fixed
      else m.serial rows batch whole fixed

end LookupModel
end Selectivity
