import Selectivity.Estimate.Composition
import Selectivity.Estimate.Range

/-! What one predicate contributes to the selectivity of an access path. -/

namespace Selectivity

inductive EstimateKind (α : Type) where
  | range (r : Range α)
  | notEquals (value : Scalar α)
  | null
  | notNull
  /-- A predicate that is no range. -/
  | default (factor : α)

structure Estimate (α : Type) where
  operand : Option Operand
  qualifier : Qualifier
  join : Bool := false
  transformed : Bool := false
  kind : EstimateKind α

namespace Estimate

variable {α : Type}

def slot (e : Estimate α) : Nat := slotOf e.operand

def range? (e : Estimate α) : Option (Range α) :=
  match e.kind with
  | .range r => some r
  | _ => none

def excluded? (e : Estimate α) : Option (Scalar α) :=
  match e.kind with
  | .notEquals value => some value
  | _ => none

/-- Estimates of one operand and qualifier may be merged. -/
def concerns (e : Estimate α) (operand : Operand) (qualifier : Qualifier) : Bool :=
  e.operand == some operand && e.qualifier == qualifier

/-- A predicate of the join restricts the path only if it is probed per outer row. -/
def participates (e : Estimate α) (method : Option JoinMethod) : Bool :=
  !e.join || method == some .nestedLoop

variable [Quantity α]
open Quantity

/-- The null fraction of an operand, or a default where nothing is known of it. -/
def nullFraction (p : Provider α) (default : α) (operand : Operand) : α :=
  if p.knows operand then p.nullFraction operand else default

/-- The fraction of rows that pass. -/
def selectivity (e : Estimate α) (p : Provider α) (defaultNullFraction : α) : α :=
  clamp <|
    match e.kind, e.operand with
    | .default factor, _ => if e.transformed then one else factor
    | .range r, some operand => p.range operand r.start r.stop r.extrapolate
    | .notEquals value, some operand => one - p.point operand value
    | .null, some operand => nullFraction p defaultNullFraction operand
    | .notNull, some operand => one - nullFraction p defaultNullFraction operand
    | _, none => one

end Estimate
end Selectivity
