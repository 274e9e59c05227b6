import Selectivity.AccessPath.Estimator

/-! Estimates in the lists they are filed in. There is one map of lists for each phase, and an
estimate carries the slot under which it goes into its list. A range keeps a flag for each of
its sides, with a bound or without. -/

namespace Selectivity.Filing

open PathEstimator (Side)

/-! ### Ranges -/

structure Range (α : Type) where
  start : Option (Scalar α)
  stop : Option (Scalar α)
  includeStart : Bool
  includeStop : Bool
  extrapolate : Bool

namespace Range

variable {α : Type}

/-- A range needs at least one bound. The flag of a side without a bound is dropped. -/
def ofBounds (start stop : Option (Scalar α)) (includeStart includeStop extrapolate : Bool) :
    Except EstimateError (Range α) :=
  if start.isNone && stop.isNone then .error .unboundedRange
  else .ok
    { start, stop, extrapolate
      includeStart := includeStart && start.isSome
      includeStop := includeStop && stop.isSome }

def point (value : Scalar α) (extrapolate : Bool) : Range α :=
  { start := some value, stop := some value, includeStart := true, includeStop := true, extrapolate }

def setStart (r : Range α) (value : Scalar α) (inclusive : Bool) : Range α :=
  { r with start := some value, includeStart := inclusive }

def setStop (r : Range α) (value : Scalar α) (inclusive : Bool) : Range α :=
  { r with stop := some value, includeStop := inclusive }

def set (r : Range α) (side : Side) (value : Scalar α) (inclusive : Bool) : Range α :=
  match side with
  | .lower => r.setStart value inclusive
  | .upper => r.setStop value inclusive

def lacks (r : Range α) (side : Side) : Bool :=
  match side with
  | .lower => r.start.isNone
  | .upper => r.stop.isNone

/-- A new range with one bound. -/
def only (side : Side) (value : Scalar α) (inclusive extrapolate : Bool) : Except EstimateError (Range α) :=
  match side with
  | .lower => ofBounds (some value) none inclusive false extrapolate
  | .upper => ofBounds none (some value) false inclusive extrapolate

def isOpenEnded (r : Range α) : Bool := r.start.isNone || r.stop.isNone

variable [Quantity α]

/-- The range with an excluded value taken in, if the value sits on one of its edges. -/
def absorb? (r : Range α) (value : Scalar α) (least greatest : Option (Scalar α)) : Option (Range α) :=
  if !r.isOpenEnded then none
  else if r.start.any (·.equates value) then some { r with includeStart := false }
  else if r.stop.any (·.equates value) then some { r with includeStop := false }
  else if r.start.isNone && least.any (·.equates value) then some (r.setStart value false)
  else if r.stop.isNone && greatest.any (·.equates value) then some (r.setStop value false)
  else none

end Range

/-! ### Estimates -/

inductive Kind (α : Type) where
  | range (r : Range α)
  | notEquals (value : Scalar α)
  | null
  | notNull
  | default (factor : α)

structure Estimate (α : Type) where
  operand : Option Operand
  slot : Nat
  qualifier : Qualifier
  join : Bool
  transformed : Bool
  kind : Kind α

namespace Estimate

variable {α : Type}

/-- The slot is settled when an estimate is made. -/
def of (operand : Option Operand) (qualifier : Qualifier) (p : Predicate α) (kind : Kind α) : Estimate α :=
  { operand, slot := (operand.map Operand.slot).getD 0, qualifier, join := p.join, transformed := p.transformed, kind }

def excluded? (e : Estimate α) : Option (Scalar α) :=
  match e.kind with
  | .notEquals value => some value
  | _ => none

def concerns (e : Estimate α) (operand : Operand) (qualifier : Qualifier) : Bool :=
  e.operand == some operand && e.qualifier == qualifier

/-- Changes the range of a mergeable estimate, if the change applies to it. -/
def changeRange? (operand : Operand) (qualifier : Qualifier) (change : Range α → Option (Range α)) (e : Estimate α) :
    Option (Estimate α) :=
  if e.concerns operand qualifier then
    match e.kind with
    | .range r => (change r).map fun r => { e with kind := .range r }
    | _ => none
  else none

def participates (e : Estimate α) (method : Option JoinMethod) : Bool := !e.join || method == some .nestedLoop

variable [Quantity α]
open Quantity

/-- Whether a new range can take an estimate in. -/
def isTakenBy (e : Estimate α) (operand : Operand) (qualifier : Qualifier) (r : Range α)
    (least greatest : Option (Scalar α)) : Bool :=
  match e.kind with
  | .notEquals excluded => e.concerns operand qualifier && (r.absorb? excluded least greatest).isSome
  | _ => false

/-- Only defaults are made without an operand, so the last case is there for none. -/
def selectivity (e : Estimate α) (p : Provider α) (defaultNullFraction : α) : α :=
  clamp <|
    match e.kind, e.operand with
    | .default factor, _ => if e.transformed then one else factor
    | .range r, some operand =>
      p.range operand (r.start.map (⟨·, r.includeStart⟩)) (r.stop.map (⟨·, r.includeStop⟩)) r.extrapolate
    | .notEquals value, some operand => one - p.point operand value
    | .null, some operand => Selectivity.Estimate.nullFraction p defaultNullFraction operand
    | .notNull, some operand => one - Selectivity.Estimate.nullFraction p defaultNullFraction operand
    | _, none => one

end Estimate

/-! ### Maps of lists -/

/-- Changes the list of a slot, which is empty at first. -/
def changeAt (slot : Nat) (change : List β → List β) : List (Nat × List β) → List (Nat × List β)
  | [] => [(slot, change [])]
  | (other, items) :: rest =>
    if slot < other then (slot, change []) :: (other, items) :: rest
    else if slot = other then (other, change items) :: rest
    else (other, items) :: changeAt slot change rest

theorem mem_changeAt {slot : Nat} {change : List β → List β} {entries : List (Nat × List β)} {entry : Nat × List β}
    (member : entry ∈ changeAt slot change entries) : entry.1 = slot ∨ entry ∈ entries := by
  induction entries with
  | nil => exact .inl (congrArg Prod.fst (List.mem_singleton.mp member))
  | cons first rest ih =>
    rw [changeAt] at member
    grind

theorem changeAt_ascending {slot : Nat} {change : List β → List β} {entries : List (Nat × List β)}
    (ascending : entries.Pairwise (·.1 < ·.1)) : (changeAt slot change entries).Pairwise (·.1 < ·.1) := by
  induction entries with
  | nil => exact List.pairwise_singleton _ _
  | cons first rest ih =>
    obtain ⟨above, later⟩ := List.pairwise_cons.mp ascending
    rw [changeAt]
    split
    next less =>
      exact List.pairwise_cons.mpr
        ⟨List.forall_mem_cons.mpr ⟨less, fun entry member => Nat.lt_trans less (above entry member)⟩, ascending⟩
    next =>
      split
      next => exact List.pairwise_cons.mpr ⟨above, later⟩
      next =>
        refine List.pairwise_cons.mpr ⟨fun entry member => ?_, ih later⟩
        rcases mem_changeAt member with rfl | old
        · simp only
          omega
        · exact above entry old

/-- Lists by slot, in the order of the slots. -/
structure Slots (β : Type) where
  entries : List (Nat × List β)
  ascending : entries.Pairwise (·.1 < ·.1)

namespace Slots

def empty : Slots β := ⟨[], .nil⟩

def get? (slots : Slots β) (slot : Nat) : Option (List β) := slots.entries.lookup slot

def change (slots : Slots β) (slot : Nat) (change : List β → List β) : Slots β :=
  ⟨changeAt slot change slots.entries, changeAt_ascending slots.ascending⟩

def values (slots : Slots β) : List β := slots.entries.flatMap (·.2)

end Slots

/-! ### Filing -/

structure Estimator (α : Type) where
  path : AccessPath α
  provider : Provider α
  settings : Settings α
  scan : Slots (Estimate α) := .empty
  top : Slots (Estimate α) := .empty
  missing : List Operand := []

namespace Estimator

variable {α : Type}

def lists (est : Estimator α) (phase : Phase) : Slots (Estimate α) :=
  match phase with
  | .scan => est.scan
  | .top => est.top

def columnEstimates (est : Estimator α) (phase : Phase) (slot : Nat) : List (Estimate α) :=
  ((est.lists phase).get? slot).getD []

/-- The estimates of one phase, by ascending slot. -/
def estimates (est : Estimator α) (phase : Phase) : List (Estimate α) := (est.lists phase).values

def changeList (est : Estimator α) (phase : Phase) (slot : Nat) (change : List (Estimate α) → List (Estimate α)) :
    Estimator α :=
  match phase with
  | .scan => { est with scan := est.scan.change slot change }
  | .top => { est with top := est.top.change slot change }

def note (est : Estimator α) (operand : Option Operand) : Estimator α :=
  match operand with
  | some o => if est.provider.knows o then est else { est with missing := insertOperand o est.missing }
  | none => est

/-- What is left to be filed goes to the end of the list of its slot. -/
def file (q : Qualifier) : Option (Estimate α) × Estimator α → Estimator α
  | (some e, est) => est.changeList q.phase e.slot (· ++ [e])
  | (none, est) => est

variable [Quantity α]

/-- A bound goes into the first range that has none on its side. Otherwise it makes a new
range, and the first excluded value on the edge of that is taken out of the list and into it. -/
def addBound (est : Estimator α) (operand : Operand) (side : Side) (value : Scalar α) (inclusive : Bool)
    (q : Qualifier) (p : Predicate α) : Except EstimateError (Option (Estimate α) × Estimator α) := do
  let least := est.provider.least operand
  let greatest := est.provider.greatest operand
  let list := est.columnEstimates q.phase operand.slot
  let fill (r : Range α) := if r.lacks side then some (r.set side value inclusive) else none
  match replaceFirst? (Estimate.changeRange? operand q fill) list with
  | some merged => return (none, est.changeList q.phase operand.slot fun _ => merged)
  | none =>
    let r ← Range.only side value inclusive (est.path.extrapolates operand)
    match list.findIdx? (·.isTakenBy operand q r least greatest) with
    | none => return (some (.of (some operand) q p (.range r)), est)
    | some index =>
      let r := match list[index]?.bind Estimate.excluded? with
        | some excluded => (r.absorb? excluded least greatest).getD r
        | none => r
      return (some (.of (some operand) q p (.range r)), est.changeList q.phase operand.slot (·.eraseIdx index))

/-- Merges a comparison with a constant into what is filed. If it cannot be merged, it gives the
estimate that is to be filed. -/
def addComparison (est : Estimator α) (operand : Operand) (op : Comparator) (value : Scalar α) (q : Qualifier)
    (p : Predicate α) : Except EstimateError (Option (Estimate α) × Estimator α) := do
  let est := est.changeList q.phase operand.slot id
  match op with
  | .eq => return (some (.of (some operand) q p (.range (.point value (est.path.extrapolates operand)))), est)
  | .ne =>
    let absorb (r : Range α) := r.absorb? value (est.provider.least operand) (est.provider.greatest operand)
    match replaceFirst? (Estimate.changeRange? operand q absorb) (est.columnEstimates q.phase operand.slot) with
    | some merged => return (none, est.changeList q.phase operand.slot fun _ => merged)
    | none => return (some (.of (some operand) q p (.notEquals value)), est)
  | .gt => est.addBound operand .lower value false q p
  | .ge => est.addBound operand .lower value true q p
  | .lt => est.addBound operand .upper value false q p
  | .le => est.addBound operand .upper value true q p
  | .isNull | .isNotNull => throw (.unknownComparator op.symbol)

/-- What a predicate comes to, besides what it is merged with. -/
def classify (est : Estimator α) (p : Predicate α) (q : Qualifier) :
    Except EstimateError (Option (Estimate α) × Estimator α) :=
  let byDefault := some (Estimate.of p.operand q p (.default est.settings.predicateFactor))
  match p.operand, p.kind with
  | some operand, .compare .isNull _ => return (some (.of (some operand) q p .null), est)
  | some operand, .compare .isNotNull _ => return (some (.of (some operand) q p .notNull), est)
  | some operand, .compare op (some value) =>
    if value.isNull then return (byDefault, est) else est.addComparison operand op value q p
  | some operand, .between (some low) (some high) =>
    if low.isNull || high.isNull then return (byDefault, est)
    else do
      let r ← Range.ofBounds (some low) (some high) true true (est.path.extrapolates operand)
      return (some (.of (some operand) q p (.range r)), est)
  | _, _ => return (byDefault, est)

def add (est : Estimator α) (p : Predicate α) (q : Qualifier) : Except EstimateError (Estimator α) := do
  return file q (← (est.note p.operand).classify p q)

def addAll (est : Estimator α) (ps : List (Predicate α × Qualifier)) : Except EstimateError (Estimator α) :=
  ps.foldlM (fun est (p, q) => est.add p q) est

def composed (est : Estimator α) (chosen : List (Estimate α)) : α :=
  compose ((chosen.filter (·.participates est.path.joinMethod)).map
    (·.selectivity est.provider est.settings.nullFraction))

def totalSelectivity (est : Estimator α) : α := est.composed (est.estimates .scan ++ est.estimates .top)

def selectivityOf (est : Estimator α) (qualifiers : List Qualifier) : α :=
  est.composed ((est.estimates .scan ++ est.estimates .top).filter fun e => qualifiers.contains e.qualifier)

end Estimator
end Selectivity.Filing
