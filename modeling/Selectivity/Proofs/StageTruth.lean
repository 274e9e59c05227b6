import Selectivity.Proofs.ChainStage
import Selectivity.Proofs.ExpansionStage
import Selectivity.Proofs.KleeneTruth
import Selectivity.Proofs.NegationStage

/-! Pushing negations down, building chains and distributing keep the truth of an
expression on every row. A chain is a group of its connective, so all of it reduces to
the laws of groups. -/

namespace Selectivity

open Truth

namespace Atom

theorem negate_truth (row : Row) (leaf : Atom) : leaf.negate.truth row = (leaf.truth row).not := by
  cases leaf with
  | compare op left right =>
    cases op
    case isNull => exact (not_ofBool _).symm
    case isNotNull => simp only [negate, Comparator.negate, truth, not_ofBool, Bool.not_not]
    all_goals
      cases right with
      | none => rfl
      | some right =>
        simp only [negate, Comparator.negate, truth, Comparator.truth]
        cases (left.value row).compare? (right.value row) with
        | none => rfl
        | some outcome => cases outcome <;> rfl
  | inList columns rows negated =>
    cases negated with
    | false => rfl
    | true => simp only [negate, truth, Bool.not_true, Bool.false_eq_true, if_false, if_true, Truth.not_not]
  | constant value => exact (not_ofBool value).symm

theorem truth_of_isConstant {leaf : Atom} {value : Bool} (constant : leaf.isConstant value = true) (row : Row) :
    leaf.truth row = ofBool value := by
  cases leaf with
  | constant other => rw [truth, beq_iff_eq.mp constant]
  | compare => cases constant
  | inList => cases constant

end Atom

namespace Expr

variable (row : Row)

def overTruth (row : Row) (c : Connective) (es : List Expr) : Truth := c.over (es.map (truth row))

theorem chain_truth (c : Connective) (es : List Expr) : (chain c es).truth row = overTruth row c es := by
  induction es with
  | nil => rfl
  | cons e es ih =>
    simp only [overTruth, List.map_cons, Connective.over_cons] at ih ⊢
    rw [← ih]
    rfl

theorem overTruth_singleton (c : Connective) (e : Expr) : overTruth row c [e] = e.truth row := c.truth_unit _

theorem overTruth_append (c : Connective) (es fs : List Expr) :
    overTruth row c (es ++ fs) = c.truth (overTruth row c es) (overTruth row c fs) := by
  simp only [overTruth, List.map_append, Connective.over_append]

theorem members_truth (c : Connective) (e : Expr) : overTruth row c (e.members c) = e.truth row := by
  induction e with
  | link d left right _ ih =>
    rw [members]
    split
    next same =>
      subst same
      exact congrArg (d.truth _) ih
    next => exact overTruth_singleton row c _
  | not operand _ => exact overTruth_singleton row c _
  | atom leaf =>
    rw [members]
    split
    next constant => exact (leaf.truth_of_isConstant constant row).symm
    next => exact overTruth_singleton row c _

/-! ### Negations -/

theorem pushed_truth (negated : Bool) (e : Expr) :
    (e.pushed negated).truth row = if negated then (e.truth row).not else e.truth row := by
  induction e generalizing negated with
  | link c left right lefts rights =>
    cases negated with
    | false => simp only [pushed, truth, lefts, rights, Bool.false_eq_true, if_false]
    | true => simp only [pushed, truth, lefts, rights, if_true, Connective.not_truth]
  | not operand ih =>
    rw [pushed, ih]
    cases negated with
    | false => rfl
    | true => exact (Truth.not_not _).symm
  | atom leaf =>
    cases negated with
    | false => rfl
    | true => exact leaf.negate_truth row

/-! ### Chains -/

private theorem operands_and_chained_truth (e : Expr) :
    (∀ c, overTruth row c (e.operands c) = e.truth row) ∧ e.chained.truth row = e.truth row := by
  induction e with
  | link d left right lefts rights =>
    have grouped : overTruth row d (left.operands d ++ right.operands d) = (Expr.link d left right).truth row := by
      rw [overTruth_append, lefts.1, rights.1]
      rfl
    have chained : (Expr.link d left right).chained.truth row = (Expr.link d left right).truth row := by
      rw [Expr.chained, chain_truth, grouped]
    refine ⟨fun c => ?_, chained⟩
    rw [operands]
    split
    next same => exact same ▸ grouped
    next => rw [overTruth_singleton, chain_truth, grouped]
  | not operand ih =>
    have chained : (Expr.not operand).chained.truth row = (Expr.not operand).truth row := by
      simp only [Expr.chained, truth, ih.2]
    exact ⟨fun c => (overTruth_singleton row c _).trans chained, chained⟩
  | atom leaf =>
    refine ⟨fun c => ?_, rfl⟩
    rw [operands]
    split
    next constant => exact (leaf.truth_of_isConstant constant row).symm
    next => exact overTruth_singleton row c _

theorem rootChained_truth (e : Expr) : e.rootChained.truth row = e.truth row := by
  have grouped := (operands_and_chained_truth row e).1 .and
  rw [rootChained]
  split
  next empty =>
    rw [empty] at grouped
    exact grouped
  next => rw [chain_truth, grouped]

/-! ### Distribution -/

private theorem disjuncts_truth (e : Expr) : overTruth row .or e.disjuncts = e.truth row := by
  rw [disjuncts]
  split
  next => exact members_truth row .or e
  next => exact overTruth_singleton row .or e

private theorem flatMap_truth (c : Connective) (part : Expr → List Expr) (es : List Expr) :
    overTruth row c (es.flatMap part) = c.over (es.map fun e => overTruth row c (part e)) := by
  induction es with
  | nil => rfl
  | cons e es ih => simp only [List.flatMap_cons, overTruth_append, ih, List.map_cons, Connective.over_cons]

/-- With some picks made, the disjunctions that remain say that a pick holds or some
factor holds throughout. -/
private theorem distribute_truth (factors : List (List Expr)) (picked : List Expr) :
    overTruth row .and (distribute factors picked) =
      Truth.or (overTruth row .or picked) (Connective.or.over (factors.map (overTruth row .and))) := by
  induction factors generalizing picked with
  | nil =>
    have reversed : Connective.or.over (picked.reverse.map (truth row)) = overTruth row .or picked :=
      Connective.over_congr .or (by simp)
    rw [distribute, overTruth_singleton, chain_truth, flatMap_truth]
    simp only [disjuncts_truth, reversed]
    exact (Connective.or.truth_unit _).symm
  | cons factor factors ih =>
    have moved (e : Expr) : overTruth row .and (distribute factors (e :: picked)) =
        Truth.or (Truth.or (overTruth row .or picked) (Connective.or.over (factors.map (overTruth row .and))))
          (e.truth row) := by
      rw [ih]
      change Truth.or (Truth.or (e.truth row) (overTruth row .or picked)) _ = _
      generalize e.truth row = first
      generalize overTruth row .or picked = second
      generalize Connective.or.over _ = third
      cases first <;> cases second <;> cases third <;> rfl
    have whole := Connective.and.truth_over_dual
      (Truth.or (overTruth row .or picked) (Connective.or.over (factors.map (overTruth row .and))))
      (factor.map (truth row))
    rw [distribute, flatMap_truth]
    simp only [moved]
    rw [List.map_map] at whole
    refine whole.trans ?_
    change Truth.or _ (overTruth row .and factor) =
      Truth.or _ (Truth.or (overTruth row .and factor) (Connective.or.over (factors.map (overTruth row .and))))
    generalize overTruth row .and factor = first
    generalize overTruth row .or picked = second
    generalize Connective.or.over _ = third
    cases first <;> cases second <;> cases third <;> rfl

theorem derived_truth (e : Expr) : overTruth row .and e.derived = e.truth row := by
  rw [derived, distribute_truth, factors, List.map_map]
  have whole : overTruth row .and ∘ members .and = truth row := funext (members_truth row .and)
  rw [whole]
  exact (Connective.or.unit_truth _).trans (members_truth row .or e)

private theorem expands_truth {budget : Nat} {es fs : List Expr} {any : Bool} (expands : Expands budget es fs any) :
    overTruth row .and fs = overTruth row .and es := by
  induction expands with
  | nil => rfl
  | @keep e _ _ _ _ ih => exact congrArg (Truth.and (e.truth row)) ih
  | @derive e _ _ _ _ _ ih =>
    rw [overTruth_append, derived_truth, ih]
    rfl

theorem RootExpands.truth_eq {budget : Nat} {e f : Expr} (expands : e.RootExpands budget f) :
    f.truth row = e.truth row := by
  cases expands with
  | unchanged => rfl
  | rebuilt _ expands => rw [chain_truth, expands_truth row expands, members_truth]

end Expr
end Selectivity
