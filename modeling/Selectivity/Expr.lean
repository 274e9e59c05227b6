import Selectivity.Column
import Selectivity.Comparator
import Selectivity.Scalar

/-! Boolean expressions over predicates, as nested terms. Conjunction and
disjunction are the two cases of one connective, each with its neutral constant. -/

namespace Selectivity

inductive Connective where
  | and
  | or
  deriving DecidableEq, Repr

namespace Connective

def dual : Connective → Connective
  | and => or
  | or => and

/-- The constant that changes nothing as an operand. -/
def unit : Connective → Bool
  | and => true
  | or => false

def word : Connective → String
  | and => "AND"
  | or => "OR"

end Connective

/-- A side of a comparison. -/
inductive Term where
  | column (c : Column)
  | literal (value : Value)

def Term.beq : Term → Term → Bool
  | .column a, .column b => a == b
  | .literal a, .literal b => a == b
  | _, _ => false

instance : BEq Term := ⟨Term.beq⟩

/-- A predicate without parts that are predicates. -/
inductive Atom where
  /-- The right side is missing in null tests. -/
  | compare (op : Comparator) (left : Term) (right : Option Term)
  /-- Every row has one value per column. -/
  | inList (columns : List Column) (rows : List (List Value)) (negated : Bool)
  | constant (value : Bool)

namespace Atom

def beq : Atom → Atom → Bool
  | .compare op left right, .compare op' left' right' => op == op' && left == left' && right == right'
  | .inList columns rows negated, .inList columns' rows' negated' =>
    columns == columns' && rows == rows' && negated == negated'
  | .constant a, .constant b => a == b
  | _, _ => false

instance : BEq Atom := ⟨beq⟩

def isConstant (value : Bool) : Atom → Bool
  | .constant v => v == value
  | _ => false

/-- The atom with the opposite answer. -/
def negate : Atom → Atom
  | .compare op left right => .compare op.negate left right
  | .inList columns rows negated => .inList columns rows (!negated)
  | .constant value => .constant (!value)

end Atom

inductive Expr where
  | link (c : Connective) (left right : Expr)
  | not (operand : Expr)
  | atom (a : Atom)

namespace Expr

def constant (value : Bool) : Expr := .atom (.constant value)

def comparison (column : Column) (op : Comparator) (value : Value) : Expr :=
  .atom (.compare op (.column column) (some (.literal value)))

/-- The expressions joined from the left, or the neutral constant if there are none. -/
def joined (c : Connective) : List Expr → Expr
  | [] => constant c.unit
  | first :: rest => rest.foldl (.link c) first

def beq : Expr → Expr → Bool
  | .link c left right, .link c' left' right' => c == c' && beq left left' && beq right right'
  | .not a, .not b => beq a b
  | .atom a, .atom b => a == b
  | _, _ => false

instance : BEq Expr := ⟨beq⟩

end Expr
end Selectivity
