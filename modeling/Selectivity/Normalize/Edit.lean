import Selectivity.Arena

/-! Steps of an edit: the arena is carried along, until the tree turns out broken. -/

namespace Selectivity

abbrev Edit := StateT Arena (Except TreeError)

namespace Edit

def fetch (id : NodeId) : Edit Node := fun a => (a.node id).map (·, a)

def store (id : NodeId) (n : Node) : Edit Unit := fun a => .ok ((), a.set id n)

def append (n : Node) : Edit NodeId := fun a => .ok (a.size, a.push n)

def appendChain (c : Connective) (items : List NodeId) : Edit NodeId :=
  fun a => .ok (a.addChain c items)

/-- Asks something of the arena without changing it. -/
def ask (question : Arena → Except TreeError β) : Edit β := fun a => (question a).map (·, a)

/-- Edits what is below the root and moves the root to the result. -/
def onRoot (a : Arena) (edit : NodeId → Edit NodeId) : Except TreeError Arena := do
  let (root, a) ← edit a.root a
  return { a with root }

end Edit
end Selectivity
