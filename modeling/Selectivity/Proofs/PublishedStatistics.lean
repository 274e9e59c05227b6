import Selectivity.Proofs.CatalogKeys
import Selectivity.Proofs.EstimatorSteps
import Selectivity.Service.Exchange

/-! Published statistics stay what they were given as. An estimate about a published table is the
one that its entries and rows would give inline, whatever else is asked of the service meanwhile. -/

namespace Selectivity.Service

/-! ### Statistics from entries -/

def State.published (s : State) (r : RegisterRequest) : State :=
  { s with catalog := s.catalog.publish r.table (s.statistics r.rows r.columns) }

def State.after (s : State) (requests : List (Route × Json)) : State :=
  requests.foldl (fun s request => (s.reply request.1 request.2).1) s

variable {s t : State} {r : RegisterRequest}

theorem serve_ok {β : Type} {fields : Fields β} {handle : β → State × Reply} {body : Json} {request : β}
    (decoded : fields.decode body = .ok request) : serve fields handle s body = handle request := by
  rw [serve, decoded]

namespace Orders

def name : Json := .object [("schema", .string "sales"), ("name", .string "orders")]

def entry (distinct : Int) : Json :=
  .object [("operand", .object [("Column", .int 1)]), ("distinct_count", .int distinct), ("null_fraction", .int 0)]

def predicate : Json :=
  .object
    [("operand", .object [("Column", .int 1)]),
     ("kind", .object [("Compare", .object [("op", .string "="), ("value", .object [("Int64", .int 3)])])]),
     ("phase", .string "Base")]

def body : Json := .object [("table", name), ("rowCount", .int 100), ("columns", .array [entry 10, entry 20])]

def named : Json :=
  .object
    [("accessPath", .object [("name", .string "orders_pk")]), ("table", name), ("columns", .array [entry 5]),
     ("predicates", .array [predicate])]

def stats (distinct : Int) : Entry :=
  (.column 1, { distinct := Binary64.ofInt distinct, nullFraction := Binary64.ofInt 0 })

def request : RegisterRequest where
  table := { schema := "sales", name := "orders" }
  rows := Binary64.ofInt 100
  columns := [stats 10, stats 20]

def asked : EstimateRequest where
  path := AccessPath.ofName "orders_pk"
  table := some request.table
  columns := [stats 5]
  rows := none
  predicates := [(.comparison (.column 1) .eq (.int 3), .base)]

end Orders
end Selectivity.Service
