import Selectivity.Expr.Text
import Selectivity.Service
import Selectivity.Wire.Estimate
import Selectivity.Wire.Expr
import Selectivity.Wire.Settings
import Selectivity.Wire.Statistics

/-! Requests and replies of the service in their exchanged form, and one request
served from its body to its reply. A body that does not decode changes nothing. -/

namespace Selectivity.Service

def LookupRequest.fields : Fields LookupRequest :=
  LookupRequest.mk <$> Fields.required "rows" Json.asFloat
    <*> Fields.optional "openLatency" Json.asFloat
    <*> Fields.optional "closeLatency" Json.asFloat
    <*> Fields.withDefault "isOlap" Json.asBool false

def NormalizeRequest.fields : Fields NormalizeRequest :=
  NormalizeRequest.mk <$> Fields.required "expr" Expr.decode
    <*> Fields.optional "maxDerivedCnfPredicates" Json.asCount

def entryFields : Fields Entry :=
  Prod.mk <$> Fields.required "operand" (Operand.decode .streamed)
    <*> Fields.flattened ColumnStats.fields

def RegisterRequest.fields : Fields RegisterRequest :=
  RegisterRequest.mk <$> Fields.required "table" TableName.fields.decode
    <*> Fields.required "rowCount" Json.asFloat
    <*> Fields.withDefault "columns" (Json.asList entryFields.decode) []

/-- A predicate with the phase beside its own members. The phase is looked for first. -/
def phasedFields : Fields (Predicate Float × Qualifier) :=
  (fun qualifier predicate => (predicate, qualifier))
    <$> Fields.withDefault "phase" (Qualifier.decode .streamed) .filterBase
    <*> Fields.flattened Predicate.fields

def EstimateRequest.fields : Fields EstimateRequest :=
  EstimateRequest.mk <$> Fields.required "accessPath" AccessPath.fields.decode
    <*> Fields.optional "table" TableName.fields.decode
    <*> Fields.withDefault "columns" (Json.asList entryFields.decode) []
    <*> Fields.optional "rowCount" Json.asFloat
    <*> Fields.required "predicates" (Json.asList phasedFields.decode)

def Normalized.encode (n : Normalized) : Json :=
  .object
    [("expr", n.expr.encode),
     ("rendered", .string n.expr.render),
     ("isCnf", .bool n.chained),
     ("nodes", .ofNat n.nodes)]

def EstimateReport.encode (r : EstimateReport) : Json :=
  let est := r.estimator
  let price := est.price r.rows
  .object
    [("accessPath", .string est.path.name),
     ("rowCount", .ofFloat r.rows),
     ("totalSelectivity", .ofFloat est.totalSelectivity),
     ("baseSelectivity", .ofFloat (est.selectivityOf [.base])),
     ("scanSelectivity", .ofFloat (est.selectivityOf [.base, .filterBase])),
     ("projectionSelectivity", .ofFloat (est.selectivityOf [.filterProjection])),
     ("cost", .object
       [("scanned_rows", .ofFloat price.scannedRows),
        ("filtered_rows", .ofFloat price.filteredRows),
        ("output_rows", .ofFloat price.outputRows),
        ("scan_cost", .ofFloat price.scanCost),
        ("lookup_cost", .ofFloat price.lookupCost),
        ("projection_cost", .ofFloat price.projectionCost)]),
     ("totalCost", .ofFloat price.total.total),
     ("estimates", .array ((est.estimates .scan ++ est.estimates .top).map Estimate.encode)),
     ("missingStatistics", .array (est.missing.map Operand.encode))]

inductive Reply where
  | served (status : Nat) (body : Json)
  | refused (reason : Refusal)
  /-- The body did not decode. -/
  | rejected (error : DecodeError)
  | broken (error : TreeError)

def rejectionStatus : DecodeError → Nat
  | .malformed => 400
  | .mismatch => 422

inductive Route where
  | health
  | settings
  | stages
  | estimate
  | lookupCost
  | normalize
  | tables
  deriving DecidableEq, Repr

def Route.all : List (String × Route) :=
  [("GET /health", .health), ("GET /config", .settings), ("GET /stages", .stages),
   ("POST /estimate", .estimate), ("POST /lookup-cost", .lookupCost),
   ("POST /normalize", .normalize), ("POST /tables", .tables)]

/-- Decodes a body and serves it. -/
def serve (fields : Fields β) (handle : β → State × Reply) (s : State) (body : Json) : State × Reply :=
  match fields.decode body with
  | .ok request => handle request
  | .error error => (s, .rejected error)

namespace State

def replyLookup (s : State) (r : LookupRequest) : Reply :=
  match s.lookupCost r with
  | .ok cost => .served 200 (.object [("cost", .ofFloat cost)])
  | .error reason => .refused reason

def replyNormalize (s : State) (r : NormalizeRequest) : Reply :=
  match s.normalize r with
  | .ok normalized => .served 200 normalized.encode
  | .error error => .broken error

def replyEstimate (s : State) (r : EstimateRequest) : Reply :=
  match s.estimate r with
  | .ok report => .served 200 report.encode
  | .error reason => .refused reason

def replyRegister (s : State) (r : RegisterRequest) : State × Reply :=
  match s.register r with
  | .ok s =>
    (s, .served 201 (.object
      [("table", .string r.table.render), ("columns", .ofNat r.columns.length)]))
  | .error reason => (s, .refused reason)

/-- Serves one request. Only publishing statistics changes the state. -/
def reply (s : State) (route : Route) (body : Json) : State × Reply :=
  match route with
  | .health => (s, .served 200 (.object [("status", .string "ok")]))
  | .settings => (s, .served 200 s.settings.encode)
  | .stages =>
    (s, .served 200 (.object
      [("stages", .array ((Normalizer.ofSettings s.settings).stages.map fun stage => .string stage.name))]))
  | .estimate => serve EstimateRequest.fields (fun r => (s, s.replyEstimate r)) s body
  | .lookupCost => serve LookupRequest.fields (fun r => (s, s.replyLookup r)) s body
  | .normalize => serve NormalizeRequest.fields (fun r => (s, s.replyNormalize r)) s body
  | .tables => serve RegisterRequest.fields s.replyRegister s body

end State
end Selectivity.Service
