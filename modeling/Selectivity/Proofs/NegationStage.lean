import Selectivity.Normalize.Negation
import Selectivity.Proofs.ArenaReading

/-! What pushing negations down does to the expression of a tree. -/

namespace Selectivity

/-- The expression, or with `negated` its opposite, without negations. -/
def Expr.pushed (negated : Bool) : Expr → Expr
  | .not operand => operand.pushed (!negated)
  | .link c left right => .link (if negated then c.dual else c) (left.pushed negated) (right.pushed negated)
  | .atom leaf => .atom (if negated then leaf.negate else leaf)

namespace Arena

variable {a : Arena} {e : Expr}

/-- The walk stays within the nodes of its tree. It gives some of them up, those of
the negations. -/
theorem pushNegations_replaces {id : NodeId} {s : Finset NodeId} (owns : a.Owns id e s) (negated : Bool)
    {steps : Nat} (enough : e.height ≤ steps) :
    ∃ root b t, pushNegations steps negated id a = .ok (root, b) ∧
      Replaces a s b [root] [e.pushed negated] t := by
  induction e generalizing a id s negated steps with
  | link c first second lefts rights =>
    cases owns with
    | link found left right apart own =>
      obtain ⟨steps, rfl, low⟩ := exists_step enough
      obtain ⟨low, low'⟩ := Nat.max_le.mp low
      obtain ⟨l, b, u, runLeft, stepLeft⟩ := lefts left negated low
      obtain ⟨r, c, v, runRight, stepRight⟩ := rights (right.frame stepLeft.keeps apart.symm) negated low'
      have both := stepLeft.append stepRight apart right.lt_size
      simp only [pushNegations, Edit.bind_run, Edit.fetch_run found, ok_bind, runLeft, runRight, Edit.store_run,
        Edit.pure_run]
      exact ⟨_, _, _, rfl, both.setLink _ (lt_size_of_get? found) own⟩
  | not operand below =>
    cases owns with
    | not found inner own =>
      obtain ⟨steps, rfl, low⟩ := exists_step enough
      obtain ⟨root, b, t, run, step⟩ := below inner (!negated) low
      simp only [pushNegations, Edit.bind_run, Edit.fetch_run found, ok_bind]
      exact ⟨root, b, t, run, step.mono (Finset.subset_insert _ _)⟩
  | atom leaf =>
    cases owns with
    | atom found =>
      obtain ⟨steps, rfl, _⟩ := exists_step enough
      simp only [pushNegations, Edit.bind_run, Edit.fetch_run found, ok_bind, Edit.store_run, Edit.pure_run]
      exact ⟨_, _, _, rfl, .setAtom _ (lt_size_of_get? found)⟩

theorem withoutNegations_holds (holds : a.Holds e) :
    ∃ b, a.withoutNegations = .ok b ∧ b.Holds (e.pushed false) ∧ b.limit = a.limit :=
  holds.onRoot fun _ owns =>
    pushNegations_replaces owns false (Nat.le_succ_of_le owns.stands.height_le)

end Arena
end Selectivity
