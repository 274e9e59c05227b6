import Selectivity.Expr

/-! Predicate trees stored by number. Nodes are only ever appended, children before
their parents unless a caller links them otherwise, and an edit leaves behind
what it no longer needs. Walks refuse numbers that no node has. -/

namespace Selectivity

abbrev NodeId := Nat

inductive Node where
  | link (c : Connective) (left right : NodeId)
  | not (operand : NodeId)
  | atom (a : Atom)

namespace Node

def constant (value : Bool) : Node := .atom (.constant value)

def isLink (c : Connective) : Node → Bool
  | .link d _ _ => d == c
  | _ => false

def isConstant (value : Bool) : Node → Bool
  | .atom a => a.isConstant value
  | _ => false

end Node

structure Arena where
  nodes : Array Node
  root : NodeId
  /-- The most nodes that copying may grow the arena to. -/
  limit : Nat

inductive TreeError where
  | dangling (id : NodeId)
  | full (limit : Nat)
  /-- The links of a node lead back to it. -/
  | endless
  deriving DecidableEq, Repr

def TreeError.message : TreeError → String
  | .dangling id => "Node " ++ toString id ++ " does not exist in the predicate tree"
  | .full limit => "Predicate tree exceeded its limit of " ++ toString limit ++ " nodes"
  | .endless => "Predicate tree has a cycle"

namespace Arena

def defaultLimit : Nat := Nat.pow 2 20

/-- The single constant `TRUE`. -/
def always : Arena := { nodes := #[.constant true], root := 0, limit := defaultLimit }

def size (a : Arena) : Nat := a.nodes.size

def get? (a : Arena) (id : NodeId) : Option Node := a.nodes[id]?

def node (a : Arena) (id : NodeId) : Except TreeError Node :=
  match a.get? id with
  | some found => .ok found
  | none => .error (.dangling id)

/-- Appends a node; its number is the size before. -/
def push (a : Arena) (n : Node) : Arena := { a with nodes := a.nodes.push n }

def set (a : Arena) (id : NodeId) (n : Node) : Arena :=
  { a with nodes := a.nodes.setIfInBounds id n }

def truncate (a : Arena) (mark : Nat) : Arena := { a with nodes := a.nodes.take mark }

/-- Enough steps for any walk that follows links downwards once: without cycles no
path is longer than the arena. -/
def steps (a : Arena) : Nat := a.size + 1

/-! ### Building -/

def addExpr (a : Arena) : Expr → NodeId × Arena
  | .link c left right =>
    let (left, a) := a.addExpr left
    let (right, a) := a.addExpr right
    (a.size, a.push (.link c left right))
  | .not operand =>
    let (operand, a) := a.addExpr operand
    (a.size, a.push (.not operand))
  | .atom leaf => (a.size, a.push (.atom leaf))

def ofExpr (e : Expr) : Arena :=
  let (root, a) := addExpr { nodes := #[], root := 0, limit := defaultLimit } e
  { a with root }

/-- The right-linked chain over the items, ending in the neutral constant. -/
def addChain (a : Arena) (c : Connective) (items : List NodeId) : NodeId × Arena :=
  items.foldr (fun item (tail, a) => (a.size, a.push (.link c item tail)))
    (a.size, a.push (.constant c.unit))

/-! ### Reading -/

def exprAt (a : Arena) : Nat → NodeId → Except TreeError Expr
  | 0, _ => .error .endless
  | steps + 1, id => do
    match ← a.node id with
    | .link c left right => return .link c (← a.exprAt steps left) (← a.exprAt steps right)
    | .not operand => return .not (← a.exprAt steps operand)
    | .atom leaf => return .atom leaf

/-- The expression that a node stands for. -/
def expr (a : Arena) (id : NodeId) : Except TreeError Expr := a.exprAt a.steps id

def rootExpr (a : Arena) : Except TreeError Expr := a.expr a.root

/-- Counts from the right, so that of two missing nodes the last one is named. -/
def sizeAt (a : Arena) : Nat → NodeId → Except TreeError Nat
  | 0, _ => .error .endless
  | steps + 1, id => do
    match ← a.node id with
    | .link _ left right =>
      let rights ← a.sizeAt steps right
      let lefts ← a.sizeAt steps left
      return lefts + rights + 1
    | .not operand => return (← a.sizeAt steps operand) + 1
    | .atom _ => return 1

/-- The number of nodes reachable from one, each counted once per path. -/
def subtreeSize (a : Arena) (id : NodeId) : Except TreeError Nat := a.sizeAt a.steps id

def membersAt (a : Arena) (c : Connective) : Nat → NodeId → Except TreeError (List NodeId)
  | 0, _ => .error .endless
  | steps + 1, id => do
    match ← a.node id with
    | .link d left right =>
      if d = c then return left :: (← a.membersAt c steps right) else return [id]
    | .atom (.constant value) => if value = c.unit then return [] else return [id]
    | _ => return [id]

/-- The left children down a right-linked chain, without the neutral constant at
its end. Any other node is a chain of one. -/
def members (a : Arena) (c : Connective) (id : NodeId) : Except TreeError (List NodeId) :=
  a.membersAt c a.steps id

/-! ### Copying -/

/-- Copies what `look` finds at a node to the end of an arena, children first. -/
def copyAt (look : Arena → NodeId → Except TreeError Node) :
    Nat → NodeId → Arena → Except TreeError (NodeId × Arena)
  | 0, _, _ => .error .endless
  | steps + 1, id, a => do
    match ← look a id with
    | .link c left right =>
      let (left, a) ← copyAt look steps left a
      let (right, a) ← copyAt look steps right a
      return (a.size, a.push (.link c left right))
    | .not operand =>
      let (operand, a) ← copyAt look steps operand a
      return (a.size, a.push (.not operand))
    | .atom leaf => return (a.size, a.push (.atom leaf))

/-- A copy within the arena that shares no node with what it was taken from. -/
def clone (a : Arena) (id : NodeId) : Except TreeError (NodeId × Arena) := do
  let size ← a.subtreeSize id
  if a.limit < a.size + size then .error (.full a.limit) else copyAt node a.steps id a

/-- The arena with only the nodes reachable from the root, in the order of building. -/
def compact (a : Arena) : Except TreeError Arena := do
  let (root, compacted) ← copyAt (fun _ => a.node) a.steps a.root { a with nodes := #[] }
  return { compacted with root }

end Arena
end Selectivity
