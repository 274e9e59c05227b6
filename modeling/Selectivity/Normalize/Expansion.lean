import Selectivity.Normalize.Edit

/-! Distributing disjunctions over conjunctions. A conjunct of the root that is a
disjunction of conjunctions becomes one disjunction for every way to pick a
conjunct from each of its disjuncts, if there are more than one and no more than
the budget allows. Every pick is copied. A conjunct whose copies do not fit into
the arena stays as it was, and so does the arena. -/

namespace Selectivity

/-- The largest count that is told apart from still larger ones. -/
def maxCount : Nat := UInt64.size - 1

def combinations (factors : List (List NodeId)) : Nat :=
  factors.foldl (fun count f => Nat.min (count * f.length) maxCount) 1

/-! Picks are the positions at which something is picked from each factor. They run like the
wheels of an odometer. -/
namespace Odometer

/-- The picks after these. Leftwards from before `position`, a pick at the end of its factor
starts over, and the first one that is not there goes on. -/
def advance (factors : List (List NodeId)) : (position : Nat) → (picks : List Nat) → Option (List Nat)
  | 0, _ => none
  | position + 1, picks =>
    let pick := picks[position]! + 1
    if pick < factors[position]!.length then some (picks.set position pick)
    else advance factors position (picks.set position 0)

def picked (factors : List (List NodeId)) (picks : List Nat) : List NodeId :=
  (factors.zip picks).map fun (factor, pick) => factor[pick]!

def product (factors : List (List NodeId)) : Nat := factors.foldl (fun count f => count * f.length) 1

variable {m : Type → Type} [Monad m] [MonadExcept TreeError m]

/-- Takes a turn for these picks and for all that come after them. -/
def turnsFrom (factors : List (List NodeId)) (turn : List NodeId → m NodeId) :
    (turns : Nat) → (picks : List Nat) → m (List NodeId)
  | 0, _ => throw .endless
  | turns + 1, picks => do
    let id ← turn (picked factors picks)
    match advance factors factors.length picks with
    | none => return [id]
    | some picks => return id :: (← turnsFrom factors turn turns picks)

/-- Takes a turn for every way to pick from the factors, the last pick changing fastest. -/
def expand (factors : List (List NodeId)) (turn : List NodeId → m NodeId) : m (List NodeId) :=
  if factors.any List.isEmpty then return []
  else turnsFrom factors turn (product factors) (factors.map fun _ => 0)

end Odometer

namespace Arena

/-- A copy of a pick as operands of a disjunction. A pick that is itself a
disjunction gives its own disjuncts. -/
def copyPick (pick : NodeId) (a : Arena) : Except TreeError (List NodeId × Arena) := do
  let (copy, a) ← a.clone pick
  if (← a.node copy).isLink .or then return (← a.members .or copy, a)
  return ([copy], a)

/-- The disjunction of the copies of what was picked. -/
def disjunctionOf (picked : List NodeId) : Edit NodeId := do
  let items ← picked.mapM fun pick => (copyPick pick : Edit (List NodeId))
  Edit.appendChain .or items.flatten

/-- The disjunctions derived from a conjunct, if it is to be expanded at all. -/
def derived? (a : Arena) (budget : Nat) (conjunct : NodeId) :
    Except TreeError (Option (List NodeId × Arena)) := do
  if !(← a.node conjunct).isLink .or then return none
  let factors ← (← a.members .or conjunct).mapM (a.members .and)
  let count := combinations factors
  if count ≤ 1 ∨ budget < count then return none
  return (Odometer.expand factors disjunctionOf a).toOption

/-- The conjuncts after expansion, and whether any was expanded. -/
def expandConjuncts (a : Arena) (budget : Nat) :
    List NodeId → Except TreeError ((List NodeId × Bool) × Arena)
  | [] => .ok (([], false), a)
  | conjunct :: conjuncts => do
    match ← a.derived? budget conjunct with
    | some (derived, a) =>
      let ((rest, _), a) ← a.expandConjuncts budget conjuncts
      return ((derived ++ rest, true), a)
    | none =>
      let ((rest, any), a) ← a.expandConjuncts budget conjuncts
      return ((conjunct :: rest, any), a)

/-- Expands below the root, which is left alone unless it is a conjunction. -/
def expanded (a : Arena) (budget : Nat) : Except TreeError Arena := do
  if !(← a.node a.root).isLink .and then return a
  let ((conjuncts, any), a) ← a.expandConjuncts budget (← a.members .and a.root)
  if any then
    let (root, a) := a.addChain .and conjuncts
    return { a with root }
  else return a

end Arena
end Selectivity
