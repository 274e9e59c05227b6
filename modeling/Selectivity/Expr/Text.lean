import Selectivity.Expr

/-! Expressions as SQL text. Every conjunction and disjunction is parenthesised;
a negation is not. -/

namespace Selectivity

def Term.render : Term → String
  | .column c => c.render
  | .literal value => value.render

namespace Atom

def parenthesised (items : List String) : String := "(" ++ ", ".intercalate items ++ ")"

/-- A row of one value, or a name alone, needs no parentheses. -/
def tuple (items : List String) : String :=
  match items with
  | [only] => only
  | _ => parenthesised items

def render : Atom → String
  | .compare op left (some right) => left.render ++ " " ++ op.symbol ++ " " ++ right.render
  | .compare op left none => left.render ++ " " ++ op.symbol
  | .inList columns rows negated =>
    tuple (columns.map Column.render) ++ (if negated then " NOT" else "") ++ " IN " ++
      parenthesised (rows.map fun row => tuple (row.map Scalar.render))
  | .constant value => if value then "TRUE" else "FALSE"

end Atom

def Expr.render : Expr → String
  | .link c left right => "(" ++ left.render ++ " " ++ c.word ++ " " ++ right.render ++ ")"
  | .not operand => "NOT " ++ operand.render
  | .atom a => a.render

end Selectivity
