import Selectivity.AccessPath
import Selectivity.Cost.Lookup
import Selectivity.Estimate

/-! Collecting the predicates of one access path. Comparisons with constants become
ranges and excluded values, merged where they concern the same operand under the
same qualifier; null tests and all other predicates are recorded one by one.
Estimates are kept in the order in which they were recorded. -/

namespace Selectivity

/-- Replaces the first element that can be replaced. -/
def replaceFirst? (change : β → Option β) : List β → Option (List β)
  | [] => none
  | x :: rest =>
    match change x with
    | some changed => some (changed :: rest)
    | none => (replaceFirst? change rest).map (x :: ·)

/-- Takes out the first element with a result, and gives that result. -/
def takeFirst? (result : β → Option γ) : List β → Option (γ × List β)
  | [] => none
  | x :: rest =>
    match result x with
    | some found => some (found, rest)
    | none => (takeFirst? result rest).map fun (found, others) => (found, x :: others)

/-- Adds an operand to a sorted list without repeats. -/
def insertOperand (operand : Operand) : List Operand → List Operand
  | [] => [operand]
  | x :: rest =>
    match operand.order x with
    | .lt => operand :: x :: rest
    | .eq => x :: rest
    | .gt => x :: insertOperand operand rest

structure PathEstimator (α : Type) where
  path : AccessPath α
  provider : Provider α
  settings : Settings α
  recorded : List (Estimate α) := []
  /-- Operands met without statistics, in ascending order. -/
  missing : List Operand := []

namespace PathEstimator

variable {α : Type} [Quantity α]

/-- An end of a range that a comparison gives. -/
inductive Side where
  | lower
  | upper
  deriving DecidableEq

def Side.openIn (side : Side) (r : Range α) : Bool :=
  match side with
  | lower => r.start.isNone
  | upper => r.stop.isNone

def Side.set (side : Side) (r : Range α) (bound : Bound α) : Range α :=
  match side with
  | lower => r.setStart bound
  | upper => r.setStop bound

def Side.only (side : Side) (bound : Bound α) (extrapolate : Bool) : Range α :=
  match side with
  | lower => Range.above bound extrapolate
  | upper => Range.below bound extrapolate

/-- What a comparison with a constant asks for. -/
inductive Restriction (α : Type) where
  | equal (value : Scalar α)
  | unequal (value : Scalar α)
  | bounded (side : Side) (bound : Bound α)

def restriction? (op : Comparator) (value : Scalar α) : Option (Restriction α) :=
  match op with
  | .eq => some (.equal value)
  | .ne => some (.unequal value)
  | .gt => some (.bounded .lower ⟨value, false⟩)
  | .ge => some (.bounded .lower ⟨value, true⟩)
  | .lt => some (.bounded .upper ⟨value, false⟩)
  | .le => some (.bounded .upper ⟨value, true⟩)
  | .isNull | .isNotNull => none

/-- Changes the range of a mergeable estimate, if the change applies to it. -/
def changeRange? (operand : Operand) (qualifier : Qualifier) (change : Range α → Option (Range α))
    (e : Estimate α) : Option (Estimate α) :=
  if e.concerns operand qualifier then
    (e.range?.bind change).map fun r => { e with kind := .range r }
  else none

/-- The recorded estimates with an excluded value taken into some range, if one has it at its edge. -/
def absorbed? (est : PathEstimator α) (operand : Operand) (qualifier : Qualifier) (value : Scalar α) :
    Option (List (Estimate α)) :=
  replaceFirst? (changeRange? operand qualifier fun r =>
    r.absorb? value (est.provider.least operand) (est.provider.greatest operand)) est.recorded

/-- The recorded estimates with a bound set in the first range that lacks it. -/
def bounded? (est : PathEstimator α) (operand : Operand) (qualifier : Qualifier) (side : Side)
    (bound : Bound α) : Option (List (Estimate α)) :=
  replaceFirst? (changeRange? operand qualifier fun r =>
    if side.openIn r then some (side.set r bound) else none) est.recorded

/-- A new range together with the recorded estimates. It takes in the first
excluded value that sits on its edge. -/
def freshRange (est : PathEstimator α) (operand : Operand) (qualifier : Qualifier) (r : Range α) :
    Range α × List (Estimate α) :=
  let absorb (e : Estimate α) : Option (Range α) :=
    if e.concerns operand qualifier then
      e.excluded?.bind fun value =>
        r.absorb? value (est.provider.least operand) (est.provider.greatest operand)
    else none
  (takeFirst? absorb est.recorded).getD (r, est.recorded)

def record (est : PathEstimator α) (p : Predicate α) (qualifier : Qualifier)
    (kind : EstimateKind α) : PathEstimator α :=
  { est with recorded := est.recorded ++
      [{ operand := p.operand, qualifier, join := p.join, transformed := p.transformed, kind }] }

def restrict (est : PathEstimator α) (p : Predicate α) (qualifier : Qualifier) (operand : Operand) :
    Restriction α → PathEstimator α
  | .equal value =>
    est.record p qualifier (.range (Range.point value (est.path.extrapolates operand)))
  | .unequal value =>
    match est.absorbed? operand qualifier value with
    | some merged => { est with recorded := merged }
    | none => est.record p qualifier (.notEquals value)
  | .bounded side bound =>
    match est.bounded? operand qualifier side bound with
    | some merged => { est with recorded := merged }
    | none =>
      let (r, rest) := est.freshRange operand qualifier (side.only bound (est.path.extrapolates operand))
      { est with recorded := rest }.record p qualifier (.range r)

/-- Notes an operand for which nothing but defaults is known. -/
def note (est : PathEstimator α) (operand : Option Operand) : PathEstimator α :=
  match operand with
  | some o => if est.provider.knows o then est else { est with missing := insertOperand o est.missing }
  | none => est

def byDefault (est : PathEstimator α) (p : Predicate α) (qualifier : Qualifier) : PathEstimator α :=
  est.record p qualifier (.default est.settings.predicateFactor)

/-- Records a predicate. Whatever is no null test and no comparison of an operand
with a constant gets the default factor. -/
def classify (est : PathEstimator α) (p : Predicate α) (qualifier : Qualifier) :
    Except EstimateError (PathEstimator α) :=
  match p.operand, p.kind with
  | some _, .compare .isNull _ => .ok (est.record p qualifier .null)
  | some _, .compare .isNotNull _ => .ok (est.record p qualifier .notNull)
  | some operand, .compare op (some value) =>
    if value.isNull then .ok (est.byDefault p qualifier)
    else match restriction? op value with
      | some r => .ok (est.restrict p qualifier operand r)
      | none => .error (.unknownComparator op.symbol)
  | some operand, .between (some low) (some high) =>
    if low.isNull || high.isNull then .ok (est.byDefault p qualifier)
    else do
      let r ← Range.ofBounds (some ⟨low, true⟩) (some ⟨high, true⟩) (est.path.extrapolates operand)
      return est.record p qualifier (.range r)
  | _, _ => .ok (est.byDefault p qualifier)

def add (est : PathEstimator α) (p : Predicate α) (qualifier : Qualifier) :
    Except EstimateError (PathEstimator α) :=
  (est.note p.operand).classify p qualifier

def addAll (est : PathEstimator α) (ps : List (Predicate α × Qualifier)) :
    Except EstimateError (PathEstimator α) :=
  ps.foldlM (fun est (p, qualifier) => est.add p qualifier) est

/-! ### What was recorded -/

/-- The estimates of one phase, by ascending slot. -/
def estimates (est : PathEstimator α) (phase : Phase) : List (Estimate α) :=
  (est.recorded.filter (·.qualifier.phase == phase)).mergeSort (·.slot ≤ ·.slot)

def columnEstimates (est : PathEstimator α) (phase : Phase) (slot : Nat) : List (Estimate α) :=
  est.recorded.filter fun e => e.qualifier.phase == phase && e.slot == slot

def composed (est : PathEstimator α) (chosen : List (Estimate α)) : α :=
  compose ((chosen.filter (·.participates est.path.joinMethod)).map
    (·.selectivity est.provider est.settings.nullFraction))

/-- The selectivity of all predicates. -/
def totalSelectivity (est : PathEstimator α) : α := est.composed est.recorded

/-- The selectivity of the predicates evaluated in one of the given ways. -/
def selectivityOf (est : PathEstimator α) (qualifiers : List Qualifier) : α :=
  est.composed (est.recorded.filter fun e => qualifiers.contains e.qualifier)

end PathEstimator
end Selectivity
