import Selectivity.Normalize.Edit

/-! Chains. A group of nested conjunctions becomes one right-linked chain ending in
`TRUE`, a group of disjunctions one ending in `FALSE`; neutral constants inside a
group are dropped. The root becomes a conjunction, of one predicate if need be.
Nothing is distributed over anything here. -/

namespace Selectivity

mutual
/-- The operands of the group at a node, each in chain form already. -/
def groupOperands (c : Connective) : Nat → NodeId → Edit (List NodeId)
  | 0, _ => throw .endless
  | steps + 1, id => do
    match ← Edit.fetch id with
    | .link d left right =>
      if d = c then
        let lefts ← groupOperands c steps left
        let rights ← groupOperands c steps right
        return lefts ++ rights
      else return [← toChain steps id]
    | .atom leaf => return if leaf.isConstant c.unit then [] else [id]
    | .not _ => return [← toChain steps id]

/-- The chain form of what is at a node. -/
def toChain : Nat → NodeId → Edit NodeId
  | 0, _ => throw .endless
  | steps + 1, id => do
    match ← Edit.fetch id with
    | .link c _ _ => Edit.appendChain c (← groupOperands c steps id)
    | .not operand =>
      let operand ← toChain steps operand
      Edit.store id (.not operand)
      return id
    | .atom _ => return id
end

/-- The root of a chain form. A tree that is `TRUE` throughout keeps one conjunct. -/
def rootChain (steps : Nat) (id : NodeId) : Edit NodeId := do
  match ← groupOperands .and steps id with
  | [] =>
    let left ← Edit.append (.constant true)
    let right ← Edit.append (.constant true)
    Edit.append (.link .and left right)
  | operands => Edit.appendChain .and operands

namespace Arena

/-- Enough steps for a walk that builds chains on its way. Nodes with several
parents may unfold to `2 ^ size` nodes, and the chain of a group is longer than
the group was deep, by no more than a constant factor. -/
def chainSteps (a : Arena) : Nat := Nat.pow 2 (a.size + 4)

def chained (a : Arena) : Except TreeError Arena :=
  Edit.onRoot a (rootChain a.chainSteps)

/-- No link has a link of its own kind on the left, from a node downwards. The
right side is looked at first. -/
def isChainedAt (a : Arena) : Nat → NodeId → Except TreeError Bool
  | 0, _ => .error .endless
  | steps + 1, id => do
    match ← a.node id with
    | .link c left right =>
      if (← a.node left).isLink c then return false
      if !(← a.isChainedAt steps right) then return false
      a.isChainedAt steps left
    | .not operand => a.isChainedAt steps operand
    | .atom _ => return true

/-- The root is a conjunction, and everything below it is chained. -/
def isChained (a : Arena) : Except TreeError Bool := do
  if (← a.node a.root).isLink .and then a.isChainedAt a.steps a.root else return false

end Arena
end Selectivity
