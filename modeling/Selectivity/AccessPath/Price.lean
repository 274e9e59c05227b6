import Selectivity.AccessPath.Estimator
import Selectivity.Cost

/-! Row counts and costs of an access path over a table of a given size. -/

namespace Selectivity

structure PathPrice (α : Type) where
  /-- Rows read from the key range. -/
  scannedRows : α
  /-- Rows left after the filters of the scan. -/
  filteredRows : α
  outputRows : α
  scanCost : α
  lookupCost : α
  projectionCost : α

def PathPrice.total (price : PathPrice Float) : Cost :=
  Cost.mk price.scanCost + Cost.mk price.lookupCost + Cost.mk price.projectionCost

namespace PathEstimator

variable {α : Type} [Quantity α]
open Quantity

def lookupCost (est : PathEstimator α) (rows openLatency closeLatency : α) : α :=
  (LookupModel.ofSettings est.settings).cost rows openLatency closeLatency est.path.olap

def price (est : PathEstimator α) (baseRows : α) : PathPrice α :=
  let rows := if lt zero baseRows then baseRows else zero
  let scanned := rows * est.selectivityOf [.base]
  let filtered := rows * est.selectivityOf [.base, .filterBase]
  let s := est.settings
  { scannedRows := scanned
    filteredRows := filtered
    outputRows := rows * est.totalSelectivity
    scanCost := scanned * s.scanRowCost + scanned * est.path.rowWidth * s.remoteByteCost
    lookupCost := if est.path.covering then zero else est.lookupCost filtered s.openLatency s.closeLatency
    projectionCost := filtered * s.projectionRowCost }

end PathEstimator
end Selectivity
