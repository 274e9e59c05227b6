import Selectivity.Expr
import Selectivity.Proofs.ValueOrder

/-! The truth of an expression on a row, in Kleene's three-valued logic. A comparison is
unknown when its sides are not comparable or one is missing, as it is for the SQL null;
a null test never is. -/

namespace Selectivity

inductive Truth where
  | no
  | unknown
  | yes
  deriving DecidableEq, Repr

namespace Truth

def ofBool (value : Bool) : Truth := if value then yes else no

def not : Truth → Truth
  | no => yes
  | unknown => unknown
  | yes => no

def and : Truth → Truth → Truth
  | no, _ | _, no => no
  | yes, yes => yes
  | _, _ => unknown

def or : Truth → Truth → Truth
  | yes, _ | _, yes => yes
  | no, no => no
  | _, _ => unknown

end Truth

open Truth

def Connective.truth : Connective → Truth → Truth → Truth
  | and => Truth.and
  | or => Truth.or

/-- All of the truth values joined, the neutral constant if there are none. -/
def Connective.over (c : Connective) (values : List Truth) : Truth := values.foldr c.truth (ofBool c.unit)

abbrev Row := Column → Value

def Term.value (row : Row) : Term → Value
  | .column c => row c
  | .literal value => value

def Comparator.truth (op : Comparator) (left right : Value) : Truth :=
  match left.compare? right with
  | some outcome => ofBool (op.accepts outcome)
  | none => unknown

def Atom.truth (row : Row) : Atom → Truth
  | .compare .isNull left _ => ofBool (left.value row).isNull
  | .compare .isNotNull left _ => ofBool !(left.value row).isNull
  | .compare op left (some right) => op.truth (left.value row) (right.value row)
  | .compare _ _ none => unknown
  | .inList columns rows negated =>
    let found := Connective.or.over (rows.map fun values =>
      Connective.and.over (List.zipWith (fun column value => Comparator.eq.truth (row column) value) columns values))
    if negated then found.not else found
  | .constant value => ofBool value

def Expr.truth (row : Row) : Expr → Truth
  | .link c left right => c.truth (left.truth row) (right.truth row)
  | .not operand => (operand.truth row).not
  | .atom leaf => leaf.truth row

namespace Truth

theorem not_not (t : Truth) : t.not.not = t := by cases t <;> rfl

theorem not_ofBool (value : Bool) : (ofBool value).not = ofBool !value := by cases value <;> rfl

end Truth

namespace Connective

variable (c : Connective)

theorem not_truth (s t : Truth) : (c.truth s t).not = c.dual.truth s.not t.not := by
  cases c <;> cases s <;> cases t <;> rfl

theorem truth_assoc (s t u : Truth) : c.truth (c.truth s t) u = c.truth s (c.truth t u) := by
  cases c <;> cases s <;> cases t <;> cases u <;> rfl

theorem unit_truth (t : Truth) : c.truth (ofBool c.unit) t = t := by cases c <;> cases t <;> rfl

theorem truth_unit (t : Truth) : c.truth t (ofBool c.unit) = t := by cases c <;> cases t <;> rfl

theorem truth_dual (s t u : Truth) : c.dual.truth s (c.truth t u) = c.truth (c.dual.truth s t) (c.dual.truth s u) := by
  cases c <;> cases s <;> cases t <;> cases u <;> rfl

theorem dual_truth_unit (t : Truth) : c.dual.truth t (ofBool c.unit) = ofBool c.unit := by
  cases c <;> cases t <;> rfl

@[simp] theorem over_nil : c.over [] = ofBool c.unit := rfl

@[simp] theorem over_cons (t : Truth) (ts : List Truth) : c.over (t :: ts) = c.truth t (c.over ts) := rfl

theorem over_append (ts us : List Truth) : c.over (ts ++ us) = c.truth (c.over ts) (c.over us) := by
  induction ts with
  | nil => simp only [List.nil_append, over_nil, unit_truth]
  | cons t ts ih => simp only [List.cons_append, over_cons, ih, truth_assoc]

/-- A group is decided by any one member with the constant that dominates it. -/
theorem over_eq_dominant_iff (ts : List Truth) :
    c.over ts = ofBool !c.unit ↔ ofBool (!c.unit) ∈ ts := by
  induction ts with
  | nil => cases c <;> decide
  | cons t ts ih =>
    rw [over_cons, List.mem_cons, ← ih]
    generalize c.over ts = rest
    cases c <;> cases t <;> cases rest <;> decide

theorem over_eq_unit_iff (ts : List Truth) : c.over ts = ofBool c.unit ↔ ∀ t ∈ ts, t = ofBool c.unit := by
  induction ts with
  | nil => simp
  | cons t ts ih =>
    rw [over_cons, List.forall_mem_cons, ← ih]
    generalize c.over ts = rest
    cases c <;> cases t <;> cases rest <;> decide

/-- Neither order nor repetition matters to a group. -/
theorem over_congr {ts us : List Truth} (same : ∀ t, t ∈ ts ↔ t ∈ us) : c.over ts = c.over us := by
  have dominant : c.over ts = ofBool !c.unit ↔ c.over us = ofBool !c.unit := by
    simp only [over_eq_dominant_iff, same]
  have neutral : c.over ts = ofBool c.unit ↔ c.over us = ofBool c.unit := by
    simp only [over_eq_unit_iff, same]
  revert dominant neutral
  generalize c.over ts = first
  generalize c.over us = second
  cases c <;> cases first <;> cases second <;> decide

/-- A truth value distributes over a group of the other connective. -/
theorem truth_over_dual (s : Truth) (ts : List Truth) :
    c.over (ts.map (c.dual.truth s)) = c.dual.truth s (c.over ts) := by
  induction ts with
  | nil => exact (c.dual_truth_unit s).symm
  | cons t ts ih => rw [List.map_cons, over_cons, ih, over_cons, truth_dual]

end Connective
end Selectivity
