import Selectivity.Binary64.Shortest

/-! The tunables of estimation and normal forms. Prices may be any quantity; the
defaults and the check are those of a stored configuration, in binary64. -/

namespace Selectivity

structure Settings (α : Type) where
  /-- Selectivity of a predicate that is no range. -/
  predicateFactor : α
  /-- Null fraction of an operand without statistics. -/
  nullFraction : α
  equalitySelectivity : α
  rangeSelectivity : α
  /-- The most disjunctions that one expansion may derive. -/
  expansionBudget : Nat
  /-- The most nodes that a predicate tree may grow to. -/
  nodeLimit : Nat
  /-- Rows fetched by one remote lookup. -/
  batchRows : Nat
  /-- Remote lookups in flight at once. -/
  concurrentBatches : Nat
  oltpRowCost : α
  olapRowCost : α
  olapStartupCost : α
  openLatency : α
  closeLatency : α
  scanRowCost : α
  remoteByteCost : α
  projectionRowCost : α

namespace Settings

def default : Settings Float where
  predicateFactor := 0.5
  nullFraction := 0.1
  equalitySelectivity := 0.1
  rangeSelectivity := 1.0 / 3.0
  expansionBudget := 100
  nodeLimit := Nat.pow 2 20
  batchRows := 4000
  concurrentBatches := 2
  oltpRowCost := 125.0
  olapRowCost := 12.5
  olapStartupCost := 30000.0
  openLatency := 0.0
  closeLatency := 0.0
  scanRowCost := 1.0
  remoteByteCost := 0.02
  projectionRowCost := 0.5

/-- What the cost formulas cannot work with. -/
inductive Problem where
  | notFraction (name : String) (given : Float)
  | notPositive (name : String)
  | notCost (name : String) (given : Float)

def Problem.message : Problem → String
  | .notFraction name given => name ++ " must be in [0, 1], got " ++ Binary64.text given
  | .notPositive name => name ++ " must be positive"
  | .notCost name given => name ++ " must be a non-negative number, got " ++ Binary64.text given

def fractions (s : Settings α) : List (String × α) :=
  [("default_predicate_factor", s.predicateFactor),
   ("default_null_fraction", s.nullFraction),
   ("default_equality_selectivity", s.equalitySelectivity),
   ("default_range_selectivity", s.rangeSelectivity)]

def counts (s : Settings α) : List (String × Nat) :=
  [("index_lookup_batch_row_count", s.batchRows),
   ("index_lookup_concurrent_batches_count", s.concurrentBatches),
   ("max_predicate_tree_nodes", s.nodeLimit)]

def costs (s : Settings α) : List (String × α) :=
  [("oltp_index_lookup_cost_per_row", s.oltpRowCost),
   ("olap_index_lookup_cost_per_row", s.olapRowCost),
   ("olap_index_lookup_startup_cost", s.olapStartupCost),
   ("index_lookup_open_latency", s.openLatency),
   ("index_lookup_close_latency", s.closeLatency),
   ("scan_cost_per_row", s.scanRowCost),
   ("remote_cost_per_byte", s.remoteByteCost),
   ("projection_cost_per_row", s.projectionRowCost)]

/-- The problems of a configuration: fractions first, then counts, then prices. -/
def problems (s : Settings Float) : List Problem :=
  (s.fractions.filter fun (_, x) => !Quantity.inUnit x).map (fun (name, x) => .notFraction name x) ++
  (s.counts.filter fun (_, n) => n == 0).map (fun (name, _) => .notPositive name) ++
  (s.costs.filter fun (_, x) => !(x.isFinite && 0.0 ≤ x)).map (fun (name, x) => .notCost name x)

/-- The first problem is the one reported. -/
def validate (s : Settings Float) : Except Problem Unit :=
  match s.problems with
  | [] => .ok ()
  | first :: _ => .error first

end Settings
end Selectivity
