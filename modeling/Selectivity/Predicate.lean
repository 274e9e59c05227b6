import Selectivity.Comparator
import Selectivity.Scalar

/-! Predicates bound to an access path: what they restrict, what they compare with,
and when they are evaluated. -/

namespace Selectivity

/-- What a predicate restricts: a base column, counted from one, or an index
expression, counted from zero. -/
inductive Operand where
  | column (position : UInt32)
  | expression (position : UInt32)
  deriving DecidableEq, Repr

namespace Operand

/-- Both kinds share one numbering from one. -/
def slot : Operand → Nat
  | column position => position.toNat
  | expression position => position.toNat + 1

def render : Operand → String
  | column position => "column#" ++ toString position.toNat
  | expression position => "indexexpr#" ++ toString position.toNat

/-- Columns come before expressions. -/
def order : Operand → Operand → Ordering
  | column a, column b => compare a b
  | column _, expression _ => .lt
  | expression _, column _ => .gt
  | expression a, expression b => compare a b

end Operand

/-- Slot 0 is for predicates without an identifiable operand. -/
def slotOf (operand : Option Operand) : Nat := operand.elim 0 Operand.slot

inductive Phase where
  | scan
  | top
  deriving DecidableEq, Repr

/-- When a predicate is evaluated: as a key range, on scanned rows before the base
row is looked up, or on the projected row. -/
inductive Qualifier where
  | base
  | filterBase
  | filterProjection
  deriving DecidableEq, Repr

def Qualifier.phase : Qualifier → Phase
  | base | filterBase => .scan
  | filterProjection => .top

/-- The algorithm of the join that an access path is the inner side of. -/
inductive JoinMethod where
  | nestedLoop
  | hash
  | merge
  | broadcast
  deriving DecidableEq, Repr

inductive PredicateKind (α : Type) where
  /-- The value is missing when it is not constant at compile time. -/
  | compare (op : Comparator) (value : Option (Scalar α))
  | between (low high : Option (Scalar α))
  /-- Anything that is not a range on one operand. -/
  | other

structure Predicate (α : Type) where
  operand : Option Operand
  kind : PredicateKind α
  /-- Meaningful to the join only. -/
  join : Bool := false
  /-- Others were derived from this one and carry its selectivity. -/
  transformed : Bool := false

namespace Predicate

variable {α : Type}

def comparison (operand : Operand) (op : Comparator) (value : Scalar α) : Predicate α :=
  { operand := some operand, kind := .compare op (some value) }

def between (operand : Operand) (low high : Scalar α) : Predicate α :=
  { operand := some operand, kind := .between (some low) (some high) }

def nullTest (operand : Operand) (op : Comparator) : Predicate α :=
  { operand := some operand, kind := .compare op none }

def other (operand : Option Operand) : Predicate α := { operand, kind := .other }

def slot (p : Predicate α) : Nat := slotOf p.operand

end Predicate
end Selectivity
