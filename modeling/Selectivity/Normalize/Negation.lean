import Selectivity.Normalize.Edit

/-! Pushing negations down to the atoms, where they turn into the opposite atom.
A walk remembers whether it is below an odd number of negations; under one, the
connectives change into their duals. Nodes keep their numbers. -/

namespace Selectivity

def pushNegations : Nat → Bool → NodeId → Edit NodeId
  | 0, _, _ => throw .endless
  | steps + 1, negated, id => do
    match ← Edit.fetch id with
    | .not operand => pushNegations steps (!negated) operand
    | .link c left right =>
      let left ← pushNegations steps negated left
      let right ← pushNegations steps negated right
      Edit.store id (.link (if negated then c.dual else c) left right)
      return id
    | .atom leaf =>
      Edit.store id (.atom (if negated then leaf.negate else leaf))
      return id

def Arena.withoutNegations (a : Arena) : Except TreeError Arena :=
  Edit.onRoot a (pushNegations a.steps false)

end Selectivity
