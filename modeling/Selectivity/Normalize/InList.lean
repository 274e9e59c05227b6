import Selectivity.Normalize.Edit

/-! Disjunctions of equalities as IN lists. A chain of disjuncts that all fix the
same columns of one table to constants is one list of rows; a chain that is not
stays, and its disjuncts are looked into. The opposite direction writes an IN list
out as a chain of equalities. -/

namespace Selectivity

/-- What a disjunct fixes: columns and their values, once per row. -/
abbrev Fixed := List (Column × Value)

namespace Atom

/-- A column that is compared for equality with a constant, on either side. -/
def equality? : Atom → Option (Column × Value)
  | .compare .eq (.column c) (some (.literal value))
  | .compare .eq (.literal value) (some (.column c)) =>
    if value.isNull then none else some (c, value)
  | _ => none

/-- The rows of a list over one column, if every row is one constant. -/
def singleColumnRows? (column : Column) (rows : List (List Value)) : Option (List Fixed) :=
  rows.mapM fun row =>
    match row with
    | [value] => if value.isNull then none else some [(column, value)]
    | _ => none

end Atom

/-- The values of a row in the order of the columns, if it has exactly those columns. -/
def align? (columns : List Column) (row : Fixed) : Option (List Value) :=
  if row.length = columns.length then columns.mapM fun column => row.lookup column else none

/-- Each element once, where it occurs first. -/
def firstOccurrences [BEq β] (items : List β) : List β :=
  (items.foldl (fun kept item => if kept.contains item then kept else item :: kept) []).reverse

/-- The IN list of all rows, under the columns of the first one. -/
def inListOf? (rows : List Fixed) : Option Atom :=
  match rows with
  | [] => none
  | first :: _ =>
    let columns := first.map (·.1)
    match columns with
    | [] => none
    | column :: _ => do
      let values ← rows.mapM (align? columns)
      if columns.all (·.table == column.table) then
        some (.inList columns (firstOccurrences values) false)
      else none

/-- A row from equalities on different columns; none if one of them is no equality. -/
def conjunctionRow? (equalities : List (Option (Column × Value))) : Option Fixed := do
  let row ← equalities.mapM id
  if row.isEmpty ∨ !(row.map (·.1)).Nodup then none else some row

namespace Arena

/-- The equality at a node, if it is one. -/
def equalityAt (a : Arena) (id : NodeId) : Except TreeError (Option (Column × Value)) := do
  match ← a.node id with
  | .atom leaf => return leaf.equality?
  | _ => return none

/-- The rows that a disjunct stands for, if it only fixes columns. -/
def rowsAt (a : Arena) (id : NodeId) : Except TreeError (Option (List Fixed)) := do
  match ← a.node id with
  | .atom (.inList [column] rows false) => return Atom.singleColumnRows? column rows
  | .atom leaf => return leaf.equality?.map fun pair => [[pair]]
  | .link .and _ _ =>
    let equalities ← (← a.members .and id).mapM a.equalityAt
    return (conjunctionRow? equalities).map ([·])
  | _ => return none

/-- A chain of disjunctions that ends in `FALSE`. -/
def endsInFalse (a : Arena) : Nat → NodeId → Except TreeError Bool
  | 0, _ => .error .endless
  | steps + 1, id => do
    match ← a.node id with
    | .link .or _ right => a.endsInFalse steps right
    | n => return n.isConstant false

/-- The IN list that a chain of disjunctions amounts to. -/
def inListAt? (a : Arena) (head : NodeId) : Except TreeError (Option Atom) := do
  if !(← a.endsInFalse a.steps head) then return none
  let disjuncts ← a.members .or head
  if disjuncts.length < 2 then return none
  let rows ← disjuncts.mapM a.rowsAt
  return (rows.mapM id).bind fun rows => inListOf? rows.flatten

end Arena

mutual
def toInLists : Nat → NodeId → Edit NodeId
  | 0, _ => throw .endless
  | steps + 1, id => do
    match ← Edit.fetch id with
    | .link .and left right =>
      let left ← toInLists steps left
      let right ← toInLists steps right
      Edit.store id (.link .and left right)
      return id
    | .link .or _ _ =>
      match ← Edit.ask (·.inListAt? id) with
      | some list => Edit.append (.atom list)
      | none =>
        disjunctsToInLists steps id
        return id
    | .not operand =>
      let operand ← toInLists steps operand
      Edit.store id (.not operand)
      return id
    | .atom _ => return id

/-- Goes through the disjuncts of a chain, each edited in its place. -/
def disjunctsToInLists : Nat → NodeId → Edit Unit
  | 0, _ => throw .endless
  | steps + 1, id => do
    match ← Edit.fetch id with
    | .link .or left right =>
      let left ← toInLists steps left
      Edit.store id (.link .or left right)
      disjunctsToInLists steps right
    | _ => return ()
end

namespace Arena

/-- The chain of an IN list can be as long as the arena below each of its nodes. -/
def listSteps (a : Arena) : Nat := 2 * a.size + 2

def withInLists (a : Arena) : Except TreeError Arena :=
  Edit.onRoot a (toInLists a.listSteps)

/-! ### Writing out -/

/-- Appends the comparisons of one row; columns or values without a partner are left out. -/
def addComparisons (a : Arena) (op : Comparator) : List Column → List Value → List NodeId × Arena
  | column :: columns, value :: values =>
    let id := a.size
    let (ids, a) := (a.push (.atom (.compare op (.column column) (some (.literal value))))).addComparisons
      op columns values
    (id :: ids, a)
  | _, _ => ([], a)

/-- A row by itself: one comparison, or a chain of them. -/
def addRow (a : Arena) (c : Connective) (op : Comparator) (columns : List Column)
    (row : List Value) : NodeId × Arena :=
  match a.addComparisons op columns row with
  | ([only], a) => (only, a)
  | (ids, a) => a.addChain c ids

def addRows (a : Arena) (c : Connective) (op : Comparator) (columns : List Column) :
    List (List Value) → List NodeId × Arena
  | [] => ([], a)
  | row :: rows =>
    let (id, a) := a.addRow c op columns row
    let (ids, a) := a.addRows c op columns rows
    (id :: ids, a)

/-- An IN list as a disjunction of rows of equalities, or a negated one as a
conjunction of rows of inequalities. The result is not linked in anywhere. -/
def expandInList (a : Arena) (id : NodeId) : Except TreeError (Option (NodeId × Arena)) := do
  match ← a.node id with
  | .atom (.inList columns rows negated) =>
    let outer : Connective := if negated then .and else .or
    let (ids, a) := a.addRows outer.dual (if negated then .ne else .eq) columns rows
    return some (a.addChain outer ids)
  | _ => return none

end Arena
end Selectivity
