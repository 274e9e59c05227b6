import Selectivity.Statistics.Table

/-! Published statistics. A table is found by its written name, schema and table
joined by a point, so two tables whose written names coincide are one entry. -/

namespace Selectivity

structure TableName where
  schema : String
  name : String
  deriving DecidableEq, Repr

def TableName.render (t : TableName) : String := t.schema ++ "." ++ t.name

structure Catalog (α : Type) where
  entries : List (String × TableStats α) := []

namespace Catalog

variable {α : Type}

/-- Publishes statistics, in the place of any published before under that name. -/
def publish (c : Catalog α) (table : TableName) (stats : TableStats α) : Catalog α :=
  { entries := (table.render, stats) :: c.entries }

def find? (c : Catalog α) (table : TableName) : Option (TableStats α) :=
  c.entries.lookup table.render

def rows? (c : Catalog α) (table : TableName) : Option α :=
  (c.find? table).map (·.rows)

end Catalog
end Selectivity
