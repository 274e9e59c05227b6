import Selectivity.Predicate

/-! The table or index whose use is being priced. -/

namespace Selectivity

structure AccessPath (α : Type) where
  name : String
  /-- The index holds every column that is needed, so no base row is looked up. -/
  covering : Bool
  olap : Bool
  /-- How the path is joined, when it is the inner side of a join. -/
  joinMethod : Option JoinMethod
  /-- Operands whose ranges may reach beyond the observed bounds. -/
  extrapolated : List Operand
  /-- The average width of a scanned row in bytes. -/
  rowWidth : α

namespace AccessPath

/-- The width assumed where none is given. -/
def defaultRowWidth : Float := 100.0

def ofName (name : String) : AccessPath Float :=
  { name, covering := true, olap := false, joinMethod := none, extrapolated := [],
    rowWidth := defaultRowWidth }

def extrapolates (path : AccessPath α) (operand : Operand) : Bool :=
  path.extrapolated.contains operand

end AccessPath
end Selectivity
