/-! References to columns of tables. -/

namespace Selectivity

structure Column where
  table : Option String
  name : String
  index : UInt32
  deriving DecidableEq, Repr

namespace Column

def ofTable (table name : String) (index : UInt32) : Column := { table := some table, name, index }

def render (c : Column) : String :=
  match c.table with
  | some table => table ++ "." ++ c.name
  | none => c.name

end Column
end Selectivity
