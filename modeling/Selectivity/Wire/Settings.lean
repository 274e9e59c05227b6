import Selectivity.Cost.Lookup
import Selectivity.Json.Decode
import Selectivity.Json.Reader

/-! The exchanged form of settings. Every member may be left out; what is left out
keeps its default. -/

namespace Selectivity

namespace Settings

def encode (s : Settings Float) : Json :=
  .object
    [("default_predicate_factor", .ofFloat s.predicateFactor),
     ("default_null_fraction", .ofFloat s.nullFraction),
     ("default_equality_selectivity", .ofFloat s.equalitySelectivity),
     ("default_range_selectivity", .ofFloat s.rangeSelectivity),
     ("max_derived_cnf_predicates", .ofNat s.expansionBudget),
     ("max_predicate_tree_nodes", .ofNat s.nodeLimit),
     ("index_lookup_batch_row_count", .ofNat s.batchRows),
     ("index_lookup_concurrent_batches_count", .ofNat s.concurrentBatches),
     ("oltp_index_lookup_cost_per_row", .ofFloat s.oltpRowCost),
     ("olap_index_lookup_cost_per_row", .ofFloat s.olapRowCost),
     ("olap_index_lookup_startup_cost", .ofFloat s.olapStartupCost),
     ("index_lookup_open_latency", .ofFloat s.openLatency),
     ("index_lookup_close_latency", .ofFloat s.closeLatency),
     ("scan_cost_per_row", .ofFloat s.scanRowCost),
     ("remote_cost_per_byte", .ofFloat s.remoteByteCost),
     ("projection_cost_per_row", .ofFloat s.projectionRowCost)]

private def number (key : String) (default : Float) : Fields Float :=
  Fields.withDefault key Json.asFloat default

private def count (key : String) (default : Nat) : Fields Nat :=
  Fields.withDefault key Json.asCount default

def fields : Fields (Settings Float) :=
  let d := Settings.default
  Settings.mk <$> number "default_predicate_factor" d.predicateFactor
    <*> number "default_null_fraction" d.nullFraction
    <*> number "default_equality_selectivity" d.equalitySelectivity
    <*> number "default_range_selectivity" d.rangeSelectivity
    <*> count "max_derived_cnf_predicates" d.expansionBudget
    <*> count "max_predicate_tree_nodes" d.nodeLimit
    <*> count "index_lookup_batch_row_count" d.batchRows
    <*> count "index_lookup_concurrent_batches_count" d.concurrentBatches
    <*> number "oltp_index_lookup_cost_per_row" d.oltpRowCost
    <*> number "olap_index_lookup_cost_per_row" d.olapRowCost
    <*> number "olap_index_lookup_startup_cost" d.olapStartupCost
    <*> number "index_lookup_open_latency" d.openLatency
    <*> number "index_lookup_close_latency" d.closeLatency
    <*> number "scan_cost_per_row" d.scanRowCost
    <*> number "remote_cost_per_byte" d.remoteByteCost
    <*> number "projection_cost_per_row" d.projectionRowCost

/-- Why a configuration is not accepted. -/
inductive LoadError where
  /-- There is no text to read. -/
  | unreadable
  | undecodable
  | invalid (problem : Problem)

/-- Settings from the text of one JSON document, checked. -/
def ofText (text : String) : Except LoadError (Settings Float) :=
  match fields.decode (Json.readDocument text) with
  | .error _ => .error .undecodable
  | .ok s =>
    match s.validate with
    | .ok () => .ok s
    | .error problem => .error (.invalid problem)

/-- Settings from the contents of a file, where there is one. -/
def ofFile (contents : Option String) : Except LoadError (Settings Float) :=
  match contents with
  | some text => ofText text
  | none => .error .unreadable

def LoadError.message? : LoadError → Option String
  | .invalid problem => some ("Invalid configuration: " ++ problem.message)
  | _ => none

end Settings

namespace LookupModel

def encode (m : LookupModel Float) : Json :=
  .object
    [("batch_row_count", .ofNat m.batchRows),
     ("concurrent_batches_count", .ofNat m.concurrentBatches),
     ("oltp_cost_per_row", .ofFloat m.oltpRowCost),
     ("olap_cost_per_row", .ofFloat m.olapRowCost),
     ("olap_startup_cost", .ofFloat m.olapStartupCost)]

def fields : Fields (LookupModel Float) :=
  LookupModel.mk <$> Fields.required "batch_row_count" Json.asCount
    <*> Fields.required "concurrent_batches_count" Json.asCount
    <*> Fields.required "oltp_cost_per_row" Json.asFloat
    <*> Fields.required "olap_cost_per_row" Json.asFloat
    <*> Fields.required "olap_startup_cost" Json.asFloat

end LookupModel
end Selectivity
