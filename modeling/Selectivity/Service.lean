import Selectivity.AccessPath.Price
import Selectivity.Catalog
import Selectivity.Normalize

/-! The estimation service: what may be asked of it, what it answers, and the one
thing that it keeps, the published statistics. -/

namespace Selectivity.Service

structure State where
  settings : Settings Float
  catalog : Catalog Float := {}

/-- Why a request that could be decoded is not served. -/
inductive Refusal where
  | notFinite
  | badRowCount (given : Float)
  | unknownTable (table : TableName)
  | notEstimable (error : EstimateError)

def Refusal.status : Refusal → Nat
  | .unknownTable _ => 404
  | _ => 400

def Refusal.message : Refusal → String
  | .notFinite => "rows and latencies must be finite"
  | .badRowCount given => "rowCount must be a non-negative number, got " ++ Binary64.text given
  | .unknownTable table => "No statistics published for table " ++ table.render
  | .notEstimable error => "Estimation failed: " ++ error.message

/-! ### Lookup costs -/

structure LookupRequest where
  rows : Float
  /-- Latencies default to the configured ones. -/
  openLatency : Option Float
  closeLatency : Option Float
  olap : Bool

def State.lookupCost (s : State) (r : LookupRequest) : Except Refusal Float :=
  let openLatency := r.openLatency.getD s.settings.openLatency
  let closeLatency := r.closeLatency.getD s.settings.closeLatency
  if r.rows.isFinite && openLatency.isFinite && closeLatency.isFinite then
    .ok ((LookupModel.ofSettings s.settings).cost r.rows openLatency closeLatency r.olap)
  else .error .notFinite

/-! ### Normal forms -/

structure NormalizeRequest where
  expr : Expr
  /-- In the place of the configured budget. -/
  budget : Option Nat

structure Normalized where
  expr : Expr
  chained : Bool
  nodes : Nat

def State.normalize (s : State) (r : NormalizeRequest) : Except TreeError Normalized := do
  let configured := Normalizer.ofSettings s.settings
  let a ← Normalizer.normalize { configured with budget := r.budget.getD configured.budget }
    (Arena.ofExpr r.expr)
  return { expr := ← a.rootExpr, chained := ← a.isChained, nodes := a.size }

/-! ### Published statistics -/

/-- The statistics of an operand, as a client gives them. -/
abbrev Entry := Operand × ColumnStats Float

structure RegisterRequest where
  table : TableName
  rows : Float
  columns : List Entry

/-- Statistics from entries, of which the last for an operand counts, with the
configured fallbacks for all other operands. -/
def State.statistics (s : State) (rows : Float) (entries : List Entry) : TableStats Float :=
  entries.foldl (fun t (operand, stats) => t.withColumn operand stats)
    ((TableStats.ofRows rows).withFallbacks s.settings)

def State.register (s : State) (r : RegisterRequest) : Except Refusal State :=
  if r.rows.isFinite && !(r.rows < 0.0) then
    .ok { s with catalog := s.catalog.publish r.table (s.statistics r.rows r.columns) }
  else .error (.badRowCount r.rows)

/-! ### Estimates -/

structure EstimateRequest where
  path : AccessPath Float
  /-- A published table goes before the entries given here. -/
  table : Option TableName
  columns : List Entry
  rows : Option Float
  predicates : List (Predicate Float × Qualifier)

/-- The size assumed of a table when nothing is known of it. -/
def defaultRows : Float := 1000.0

/-- The statistics to use, and the number of rows where they come with one. -/
def State.resolve (s : State) (r : EstimateRequest) : Except Refusal (TableStats Float × Option Float) :=
  match r.table with
  | some table =>
    match s.catalog.find? table with
    | some stats => .ok (stats, s.catalog.rows? table)
    | none => .error (.unknownTable table)
  | none => .ok (s.statistics (r.rows.getD defaultRows) r.columns, none)

structure EstimateReport where
  estimator : PathEstimator Float
  rows : Float

def State.estimate (s : State) (r : EstimateRequest) : Except Refusal EstimateReport := do
  let (stats, published) ← s.resolve r
  let fresh : PathEstimator Float :=
    { path := r.path, provider := stats.provider, settings := s.settings }
  match fresh.addAll r.predicates with
  | .ok estimator => .ok { estimator, rows := (r.rows.or published).getD defaultRows }
  | .error error => .error (.notEstimable error)

end Selectivity.Service
