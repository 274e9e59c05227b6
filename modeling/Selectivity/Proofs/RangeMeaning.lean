import Selectivity.Proofs.EstimatorSteps
import Selectivity.Proofs.ValueOrder

/-! Which values of a column the recorded estimates let through. Merging comparisons
into ranges loses none of them and invents none, as long as the value lies between the
observed ends that excluded values may be merged with. -/

namespace Selectivity

variable {α : Type} [Quantity α]

/-- The comparisons with constants that a predicate is made of. -/
def Predicate.comparisons (p : Predicate α) : List (Comparator × Scalar α) :=
  match p.kind with
  | .compare op (some value) => if op.isComparison && !value.isNull then [(op, value)] else []
  | .between (some low) (some high) => if low.isNull || high.isNull then [] else [(.ge, low), (.le, high)]
  | _ => []

def Predicate.admits (p : Predicate α) (x : Scalar α) : Prop := ∀ c ∈ p.comparisons, c.1.holds x c.2 = true

instance (p : Predicate α) (x : Scalar α) : Decidable (p.admits x) :=
  inferInstanceAs (Decidable (∀ c ∈ p.comparisons, _))

namespace PathEstimator

def Side.comparator (side : Side) (inclusive : Bool) : Comparator :=
  match side with
  | lower => if inclusive then .ge else .gt
  | upper => if inclusive then .le else .lt

def Side.admits (side : Side) (x : Scalar α) (bound : Bound α) : Bool :=
  (side.comparator bound.inclusive).holds x bound.value

def Restriction.admits (x : Scalar α) : Restriction α → Prop
  | .equal value => Comparator.eq.holds x value = true
  | .unequal value => Comparator.ne.holds x value = true
  | .bounded side bound => side.admits x bound = true

def Restriction.constant : Restriction α → Scalar α
  | .equal value | .unequal value => value
  | .bounded _ bound => bound.value

end PathEstimator

open PathEstimator

def Range.contains (r : Range α) (x : Scalar α) : Prop :=
  (∀ b ∈ r.start, Side.lower.admits x b = true) ∧ ∀ b ∈ r.stop, Side.upper.admits x b = true

/-- Inside a range, and different from an excluded value. Other estimates are about no value. -/
def EstimateKind.admits (x : Scalar α) : EstimateKind α → Prop
  | .range r => r.contains x
  | .notEquals value => x.equates value = false
  | _ => True

def Range.constants (r : Range α) : List (Scalar α) := (r.start.toList ++ r.stop.toList).map Bound.value

def EstimateKind.constants : EstimateKind α → List (Scalar α)
  | .range r => r.constants
  | .notEquals value => [value]
  | _ => []

/-! ### Excluded values at an edge -/

theorem Range.absorb?_cases {r s : Range α} {value : Scalar α} {least greatest : Option (Scalar α)}
    (absorbs : r.absorb? value least greatest = some s) :
    (∃ b, r.start = some b ∧ b.value.equates value = true ∧ s = r.setStart { b with inclusive := false }) ∨
    (∃ b, r.stop = some b ∧ b.value.equates value = true ∧ s = r.setStop { b with inclusive := false }) ∨
    (∃ m, r.start = none ∧ least = some m ∧ m.equates value = true ∧ s = r.setStart ⟨value, false⟩) ∨
    ∃ m, r.stop = none ∧ greatest = some m ∧ m.equates value = true ∧ s = r.setStop ⟨value, false⟩ := by
  rw [absorb?] at absorbs
  split at absorbs
  next => cases absorbs
  split at absorbs
  next atStart =>
    obtain ⟨b, bounded, equal⟩ := (Option.any_eq_true _ _).mp atStart
    rw [bounded] at absorbs
    exact .inl ⟨b, bounded, equal, (Option.some.inj absorbs).symm⟩
  split at absorbs
  next atStop =>
    obtain ⟨b, bounded, equal⟩ := (Option.any_eq_true _ _).mp atStop
    rw [bounded] at absorbs
    exact .inr (.inl ⟨b, bounded, equal, (Option.some.inj absorbs).symm⟩)
  split at absorbs
  next atLeast =>
    obtain ⟨missing, found⟩ := Bool.and_eq_true_iff.mp atLeast
    obtain ⟨m, known, equal⟩ := (Option.any_eq_true _ _).mp found
    exact .inr (.inr (.inl ⟨m, Option.isNone_iff_eq_none.mp missing, known, equal, (Option.some.inj absorbs).symm⟩))
  split at absorbs
  next atGreatest =>
    obtain ⟨missing, found⟩ := Bool.and_eq_true_iff.mp atGreatest
    obtain ⟨m, known, equal⟩ := (Option.any_eq_true _ _).mp found
    exact .inr (.inr (.inr ⟨m, Option.isNone_iff_eq_none.mp missing, known, equal, (Option.some.inj absorbs).symm⟩))
  next => cases absorbs

theorem Range.absorb?_constants {r s : Range α} {value : Scalar α} {least greatest : Option (Scalar α)}
    (absorbs : r.absorb? value least greatest = some s) : ∀ c ∈ s.constants, c ∈ r.constants ∨ c = value := by
  rcases absorb?_cases absorbs with ⟨b, bounded, _, rfl⟩ | ⟨b, bounded, _, rfl⟩ | ⟨m, _, _, _, rfl⟩ | ⟨m, _, _, _, rfl⟩
  · simp +contextual [constants, setStart, bounded]
  · simp +contextual [constants, setStop, bounded]
  · simp +contextual [constants, setStart]
  · simp +contextual [constants, setStop, or_imp]

section Edges

variable {D : Scalar α → Prop} {x value : Scalar α}

/-- To exclude a bound is to make it exclusive. -/
private theorem Side.admits_exclusive (ordered : Scalar.Ordered D) (side : Side) {b : Bound α} (dx : D x)
    (db : D b.value) (dv : D value) (equal : b.value.equates value = true) :
    side.admits x { b with inclusive := false } = true ↔ side.admits x b = true ∧ x.equates value = false := by
  obtain ⟨outcome, compared⟩ := ordered.comparable dx db
  have same := ordered.congr dx db dv equal
  rw [compared] at same
  simp only [Side.admits, Comparator.holds, compared, Scalar.equates, ← same, Option.any_some]
  cases side <;> cases b.inclusive <;> cases outcome <;> decide

/-- To exclude the least value is to stay above it, and the same for the greatest. -/
private theorem Side.admits_end (ordered : Scalar.Ordered D) (side : Side) {m : Scalar α} (dx : D x) (dm : D m)
    (dv : D value) (equal : m.equates value = true) (within : side.admits x ⟨m, true⟩ = true) :
    side.admits x ⟨value, false⟩ = true ↔ x.equates value = false := by
  obtain ⟨outcome, compared⟩ := ordered.comparable dx dm
  have same := ordered.congr dx dm dv equal
  rw [compared] at same
  simp only [Side.admits, Comparator.holds, compared, ← same, Scalar.equates, Option.any_some] at within ⊢
  revert within
  cases side <;> cases outcome <;> decide

/-- An absorbed value is excluded from the range, and nothing else is. -/
theorem Range.absorb?_contains (ordered : Scalar.Ordered D) {r s : Range α} {least greatest : Option (Scalar α)}
    (dx : D x) (dv : D value) (dr : ∀ c ∈ r.constants, D c)
    (low : ∀ m, least = some m → D m ∧ Side.lower.admits x ⟨m, true⟩ = true)
    (high : ∀ m, greatest = some m → D m ∧ Side.upper.admits x ⟨m, true⟩ = true)
    (absorbs : r.absorb? value least greatest = some s) :
    s.contains x ↔ r.contains x ∧ x.equates value = false := by
  rcases absorb?_cases absorbs with ⟨b, bounded, equal, rfl⟩ | ⟨b, bounded, equal, rfl⟩ |
    ⟨m, missing, known, equal, rfl⟩ | ⟨m, missing, known, equal, rfl⟩
  · have db : D b.value := dr _ (by simp [constants, bounded])
    simp only [contains, setStart, bounded, Option.mem_some_iff, forall_eq',
      Side.admits_exclusive ordered .lower dx db dv equal, and_right_comm]
  · have db : D b.value := dr _ (by simp [constants, bounded])
    simp only [contains, setStop, bounded, Option.mem_some_iff, forall_eq',
      Side.admits_exclusive ordered .upper dx db dv equal, and_assoc]
  · obtain ⟨dm, within⟩ := low m known
    simp only [contains, setStart, missing, Option.mem_some_iff, forall_eq', Option.not_mem_none, false_imp_iff,
      implies_true, true_and, Side.admits_end ordered .lower dx dm dv equal within, and_comm]
  · obtain ⟨dm, within⟩ := high m known
    simp only [contains, setStop, missing, Option.mem_some_iff, forall_eq', Option.not_mem_none, false_imp_iff,
      implies_true, and_true, Side.admits_end ordered .upper dx dm dv equal within]

end Edges

namespace PathEstimator

variable {est : PathEstimator α} {p : Predicate α} {q : Qualifier} {operand : Operand} {d : Restriction α}
  {x : Scalar α}

theorem restriction?_admits (restricts : p.restriction? = some (operand, d)) : p.admits x ↔ d.admits x := by
  obtain ⟨_, op, value, kind, given, restriction⟩ := Predicate.restriction?_eq_some.mp restricts
  simp only [Predicate.admits, Predicate.comparisons, kind, given]
  cases op <;> cases restriction <;> simp [Comparator.isComparison, Restriction.admits, Side.admits, Side.comparator]

omit [Quantity α] in
theorem restriction?_constant (restricts : p.restriction? = some (operand, d)) :
    ∃ op, (op, d.constant) ∈ p.comparisons := by
  obtain ⟨_, op, value, kind, given, restriction⟩ := Predicate.restriction?_eq_some.mp restricts
  refine ⟨op, ?_⟩
  simp only [Predicate.comparisons, kind, given]
  cases op <;> cases restriction <;> simp [Comparator.isComparison, Restriction.constant]

/-- What is not merged is an interval with two bounds, or is about no value. -/
private theorem plainKind_meaning (unmerged : p.restriction? = none) (onOperand : p.operand = some operand) :
    ((est.plainKind p).admits x ↔ p.admits x) ∧
      ∀ c ∈ (est.plainKind p).constants, ∃ op, (op, c) ∈ p.comparisons := by
  have idle (kind : EstimateKind α) (noValue : kind.constants = []) (everything : kind.admits x)
      (nothing : p.comparisons = []) :
      (kind.admits x ↔ p.admits x) ∧ ∀ c ∈ kind.constants, ∃ op, (op, c) ∈ p.comparisons := by
    rw [Predicate.admits, nothing, noValue]
    exact ⟨iff_of_true everything nofun, nofun⟩
  rw [plainKind, onOperand]
  cases shape : p.kind with
  | other => exact idle _ rfl trivial (by rw [Predicate.comparisons, shape])
  | compare op value =>
    cases value with
    | none => cases op <;> exact idle _ rfl trivial (by rw [Predicate.comparisons, shape])
    | some value =>
      have excluded : (op.isComparison && !value.isNull) = false := by
        rw [Predicate.restriction?, onOperand, shape] at unmerged
        cases given : value.isNull with
        | true => rw [Bool.not_true, Bool.and_false]
        | false => cases op <;> first | rfl | simp [given, restriction?] at unmerged
      have nothing : p.comparisons = [] := by
        simp only [Predicate.comparisons, shape, excluded, Bool.false_eq_true, if_false]
      cases op <;> exact idle _ rfl trivial nothing
  | between low high =>
    cases low with
    | none => exact idle _ rfl trivial (by rw [Predicate.comparisons, shape])
    | some low =>
      cases high with
      | none => exact idle _ rfl trivial (by rw [Predicate.comparisons, shape])
      | some high =>
        dsimp only
        split
        next given => exact idle _ rfl trivial (by simp only [Predicate.comparisons, shape, given, if_true])
        next given =>
          simp only [Predicate.admits, Predicate.comparisons, shape, if_neg given]
          simp [EstimateKind.admits, EstimateKind.constants, Range.contains, Range.constants, Range.closed,
            Side.admits, Side.comparator]

/-! ### One predicate -/

def Within (es : List (Estimate α)) (operand : Operand) (q : Qualifier) (D : Scalar α → Prop) : Prop :=
  ∀ e ∈ es, e.concerns operand q = true → ∀ c ∈ e.kind.constants, D c

def Admit (es : List (Estimate α)) (operand : Operand) (q : Qualifier) (x : Scalar α) : Prop :=
  ∀ e ∈ es, e.concerns operand q = true → e.kind.admits x

def Side.beyond (side : Side) (x m : Scalar α) : Bool :=
  match side with
  | lower => x.precedes m
  | upper => x.follows m

/-- A value that may be compared with what is known of an operand, and that lies within it. -/
structure Observed (provider : Provider α) (operand : Operand) (D : Scalar α → Prop) (x : Scalar α) : Prop where
  ordered : Scalar.Ordered D
  inside : D x
  least : ∀ m, provider.least operand = some m → D m ∧ x.precedes m = false
  greatest : ∀ m, provider.greatest operand = some m → D m ∧ x.follows m = false

variable {path : AccessPath α} {provider : Provider α} {D : Scalar α → Prop}

private theorem Side.admits_of_within (ordered : Scalar.Ordered D) (side : Side) {m : Scalar α} (dx : D x) (dm : D m)
    (within : side.beyond x m = false) : side.admits x ⟨m, true⟩ = true := by
  obtain ⟨outcome, compared⟩ := ordered.comparable dx dm
  revert within
  simp only [Side.beyond, Side.admits, Comparator.holds, Scalar.precedes, Scalar.follows, compared, Option.any_some]
  cases side <;> cases outcome <;> decide

theorem Observed.low (observed : Observed provider operand D x) {m : Scalar α}
    (known : provider.least operand = some m) : D m ∧ Side.lower.admits x ⟨m, true⟩ = true := by
  obtain ⟨dm, above⟩ := observed.least m known
  exact ⟨dm, Side.admits_of_within observed.ordered .lower observed.inside dm above⟩

theorem Observed.high (observed : Observed provider operand D x) {m : Scalar α}
    (known : provider.greatest operand = some m) : D m ∧ Side.upper.admits x ⟨m, true⟩ = true := by
  obtain ⟨dm, below⟩ := observed.greatest m known
  exact ⟨dm, Side.admits_of_within observed.ordered .upper observed.inside dm below⟩

private theorem ne_holds (ordered : Scalar.Ordered D) {value : Scalar α} (dx : D x) (dv : D value) :
    Comparator.ne.holds x value = true ↔ x.equates value = false := by
  obtain ⟨outcome, compared⟩ := ordered.comparable dx dv
  simp only [Comparator.holds, Scalar.equates, compared, Option.any_some]
  cases outcome <;> decide

private theorem fresh_admits (path : AccessPath α) (observed : Observed provider operand D x) (constant : D d.constant) :
    (d.fresh path operand).admits x ↔ d.admits x := by
  cases d with
  | equal value =>
    obtain ⟨outcome, compared⟩ := observed.ordered.comparable observed.inside constant
    simp only [Restriction.constant] at compared
    simp only [Restriction.fresh, EstimateKind.admits, Range.contains, Range.point, Restriction.admits, Side.admits,
      Side.comparator, Option.mem_some_iff, forall_eq', Comparator.holds, compared, Option.any_some]
    cases outcome <;> decide
  | unequal value => exact (ne_holds observed.ordered observed.inside constant).symm
  | bounded side bound =>
    cases side <;> simp [Restriction.fresh, EstimateKind.admits, Range.contains, Side.only, Range.above, Range.below,
      Restriction.admits]

omit [Quantity α] in
theorem fresh_constants : ∀ c ∈ (d.fresh path operand).constants, c = d.constant := by
  cases d with
  | equal value => simp [Restriction.fresh, EstimateKind.constants, Range.constants, Range.point, Restriction.constant]
  | unequal value => simp [Restriction.fresh, EstimateKind.constants, Restriction.constant]
  | bounded side bound =>
    cases side <;> simp [Restriction.fresh, EstimateKind.constants, Range.constants, Side.only, Range.above, Range.below,
      Restriction.constant]

/-- Merging brings no value into a range but that of the comparison, -/
theorem narrowed?_constants {r s : Range α} (narrows : d.narrowed? provider operand r = some s) :
    ∀ c ∈ s.constants, c ∈ r.constants ∨ c = d.constant := by
  cases d with
  | equal value => cases narrows
  | unequal value => exact Range.absorb?_constants narrows
  | bounded side bound =>
    simp only [Restriction.narrowed?] at narrows
    split at narrows
    next opened =>
      cases narrows
      cases side with
      | lower => simp +contextual [Side.set, Range.setStart, Range.constants, Restriction.constant, or_imp]
      | upper => simp +contextual [Side.set, Range.setStop, Range.constants, Restriction.constant, or_imp]
    next => cases narrows

/-- or the one that a new range takes in. -/
theorem taking?_constants {value : Scalar α} {s : Range α} (takes : d.taking? path provider operand value = some s) :
    ∀ c ∈ s.constants, c = d.constant ∨ c = value := by
  cases d with
  | equal _ | unequal _ => cases takes
  | bounded side bound =>
    intro c member
    exact (Range.absorb?_constants takes c member).imp_left (fresh_constants (d := .bounded side bound) c)

private theorem narrowed_meaning (observed : Observed provider operand D x) {r s : Range α}
    (dr : ∀ c ∈ r.constants, D c) (constant : D d.constant) (narrows : d.narrowed? provider operand r = some s) :
    s.contains x ↔ r.contains x ∧ d.admits x := by
  cases d with
  | equal value => cases narrows
  | unequal value =>
    have contains := Range.absorb?_contains observed.ordered observed.inside constant dr (fun _ => observed.low)
      (fun _ => observed.high) narrows
    exact contains.trans (and_congr_right' (ne_holds observed.ordered observed.inside constant).symm)
  | bounded side bound =>
    simp only [Restriction.narrowed?] at narrows
    split at narrows
    next opened =>
      cases narrows
      obtain ⟨start, stop, extrapolate⟩ := r
      cases side with
      | lower =>
        cases Option.isNone_iff_eq_none.mp opened
        simp [Range.contains, Side.set, Range.setStart, Restriction.admits, and_comm]
      | upper =>
        cases Option.isNone_iff_eq_none.mp opened
        simp [Range.contains, Side.set, Range.setStop, Restriction.admits]
    next => cases narrows

private theorem taken_meaning (observed : Observed provider operand D x) {value : Scalar α} {s : Range α}
    (dv : D value) (constant : D d.constant) (takes : d.taking? path provider operand value = some s) :
    s.contains x ↔ x.equates value = false ∧ d.admits x := by
  cases d with
  | equal _ | unequal _ => cases takes
  | bounded side bound =>
    have bounds : ∀ c ∈ (side.only bound (path.extrapolates operand)).constants, D c :=
      fun c member => fresh_constants (d := .bounded side bound) c member ▸ constant
    have contains := Range.absorb?_contains observed.ordered observed.inside dv bounds (fun _ => observed.low)
      (fun _ => observed.high) takes
    have whole := fresh_admits (d := .bounded side bound) path observed constant
    exact contains.trans ((and_congr_left' whole).trans and_comm)

omit [Quantity α] in
private theorem concerns_iff {e : Estimate α} (concerns : e.concerns operand q = true) (other : Operand)
    (r : Qualifier) : e.concerns other r = true ↔ operand = other ∧ q = r := by
  obtain ⟨same, same'⟩ := Bool.and_eq_true_iff.mp concerns
  rw [Estimate.concerns, beq_iff_eq.mp same, beq_iff_eq.mp same']
  simp

omit [Quantity α] in
private theorem entry_concerns (onOperand : p.operand = some operand) (kind : EstimateKind α) :
    (entry p q kind).concerns operand q = true := by
  simp [entry, Estimate.concerns, onOperand]

variable {other : Operand} {r : Qualifier}

/-- An estimate that a predicate changes, takes in or adds is about the operand of the
predicate, so that any other operand is left alone. -/
private theorem restricts_meaning (observed : Observed provider other D x) {es fs : List (Estimate α)}
    (onOperand : p.operand = some operand) (within : Within es other r D)
    (constant : operand = other ∧ q = r → D d.constant) (restricts : Restricts path provider operand q d p es fs) :
    (Admit fs other r x ↔ Admit es other r x ∧ (operand = other ∧ q = r → d.admits x)) ∧
      Within fs other r D := by
  cases restricts with
  | @narrowed before e after range s found =>
    obtain ⟨rfl, _, concerns, kind, narrows⟩ := found
    simp only [Admit, Within, List.forall_mem_append, List.forall_mem_cons] at within ⊢
    have own := concerns_iff concerns other r
    have own' : ({ e with kind := .range s } : Estimate α).concerns other r = true ↔ operand = other ∧ q = r := own
    have meaning (same : operand = other ∧ q = r) :
        (s.contains x ↔ range.contains x ∧ d.admits x) ∧ ∀ c ∈ s.constants, D c := by
      have bounds := within.2.1 (own.mpr same)
      rw [kind] at bounds
      refine ⟨narrowed_meaning (same.1 ▸ observed) bounds (constant same) narrows, fun c member => ?_⟩
      rcases narrowed?_constants narrows c member with old | rfl
      · exact bounds c old
      · exact constant same
    rw [own, own', kind]
    refine ⟨?_, within.1, fun same => (meaning same).2, within.2.2⟩
    have here : (operand = other ∧ q = r → s.contains x) ↔
        (operand = other ∧ q = r → range.contains x) ∧ (operand = other ∧ q = r → d.admits x) :=
      (forall_congr' fun same => (meaning same).1).trans forall_and
    constructor
    · intro ⟨lefts, inside, rights⟩
      obtain ⟨before, admits⟩ := here.mp inside
      exact ⟨⟨lefts, before, rights⟩, admits⟩
    · intro ⟨⟨lefts, before, rights⟩, admits⟩
      exact ⟨lefts, here.mpr ⟨before, admits⟩, rights⟩
  | @taken before e after value s kept found =>
    obtain ⟨rfl, _, concerns, kind, takes⟩ := found
    simp only [Admit, Within, List.forall_mem_append, List.forall_mem_cons, List.not_mem_nil, false_imp_iff,
      implies_true, and_true] at within ⊢
    have own := concerns_iff concerns other r
    have own' := concerns_iff (entry_concerns (q := q) onOperand (.range s)) other r
    have meaning (same : operand = other ∧ q = r) :
        (s.contains x ↔ x.equates value = false ∧ d.admits x) ∧ ∀ c ∈ s.constants, D c := by
      have excluded := within.2.1 (own.mpr same)
      rw [kind] at excluded
      have inside := excluded value (List.mem_singleton_self value)
      refine ⟨taken_meaning (same.1 ▸ observed) inside (constant same) takes, fun c member => ?_⟩
      rcases taking?_constants takes c member with rfl | rfl
      · exact constant same
      · exact inside
    rw [own, own', kind]
    refine ⟨?_, ⟨within.1, within.2.2⟩, fun same => (meaning same).2⟩
    have here : (operand = other ∧ q = r → s.contains x) ↔
        (operand = other ∧ q = r → x.equates value = false) ∧ (operand = other ∧ q = r → d.admits x) :=
      (forall_congr' fun same => (meaning same).1).trans forall_and
    constructor
    · intro ⟨⟨lefts, rights⟩, inside⟩
      obtain ⟨different, admits⟩ := here.mp inside
      exact ⟨⟨lefts, different, rights⟩, admits⟩
    · intro ⟨⟨lefts, different, rights⟩, admits⟩
      exact ⟨⟨lefts, rights⟩, here.mpr ⟨different, admits⟩⟩
  | recorded kept left =>
    simp only [Admit, Within, List.forall_mem_append, List.forall_mem_cons, List.not_mem_nil, false_imp_iff,
      implies_true, and_true]
    have own := concerns_iff (entry_concerns (q := q) onOperand (d.fresh path operand)) other r
    rw [own]
    refine ⟨and_congr_right' (forall_congr' fun same => ?_), within, fun same c member => ?_⟩
    · exact fresh_admits path (same.1 ▸ observed) (constant same)
    · exact fresh_constants c member ▸ constant same

private theorem added_meaning (observed : Observed est.provider other D x) (within : Within est.recorded other r D)
    (constants : p.operand = some other → q = r → ∀ c ∈ p.comparisons, D c.2) :
    (Admit (est.added p q).recorded other r x ↔
      Admit est.recorded other r x ∧ (p.operand = some other → q = r → p.admits x)) ∧
      Within (est.added p q).recorded other r D ∧ (est.added p q).provider = est.provider := by
  obtain ⟨es, missing, result, recorded⟩ := est.added_cases p q
  rw [result]
  cases restriction : p.restriction? with
  | some restricted =>
    obtain ⟨operand, d⟩ := restricted
    rw [restriction] at recorded
    have onOperand := (Predicate.restriction?_eq_some.mp restriction).1
    have constant (same : operand = other ∧ q = r) : D d.constant := by
      obtain ⟨op, member⟩ := restriction?_constant restriction
      exact constants (same.1 ▸ onOperand) same.2 _ member
    obtain ⟨agree, within⟩ := restricts_meaning observed onOperand within constant recorded
    refine ⟨?_, within, rfl⟩
    rw [agree, onOperand, restriction?_admits restriction]
    simp only [Option.some.injEq, and_imp]
  | none =>
    rw [restriction] at recorded
    cases recorded
    simp only [Admit, Within, List.forall_mem_append, List.forall_mem_cons, List.not_mem_nil, false_imp_iff,
      implies_true, and_true]
    have own : (entry p q (est.plainKind p)).concerns other r = true ↔ p.operand = some other ∧ q = r := by
      simp [entry, Estimate.concerns]
    rw [own, and_imp]
    refine ⟨and_congr_right' (forall_congr' fun onOperand => forall_congr' fun _ => ?_), within, ?_⟩
    · exact (plainKind_meaning restriction onOperand).1
    · intro same c member
      obtain ⟨op, given⟩ := (plainKind_meaning (x := x) restriction same.1).2 c member
      exact constants same.1 same.2 _ given

/-! ### Any number of predicates -/

private theorem addedAll_meaning (est : PathEstimator α) {ps : List (Predicate α × Qualifier)}
    (observed : Observed est.provider other D x)
    (within : Within est.recorded other r D)
    (constants : ∀ p ∈ ps, p.1.operand = some other → p.2 = r → ∀ c ∈ p.1.comparisons, D c.2) :
    Admit (est.addedAll ps).recorded other r x ↔
      Admit est.recorded other r x ∧ ∀ p ∈ ps, p.1.operand = some other → p.2 = r → p.1.admits x := by
  induction ps generalizing est with
  | nil => exact (and_iff_left fun p member => (List.not_mem_nil member).elim).symm
  | cons p ps ih =>
    obtain ⟨first, others⟩ := List.forall_mem_cons.mp constants
    obtain ⟨agree, within, same⟩ := added_meaning observed within first
    rw [List.forall_mem_cons, ← and_assoc, ← agree]
    exact ih (est.added p.1 p.2) (same ▸ observed) within others

/-- What the recorded estimates let through is what the added predicates let through. -/
theorem addAll_admits_iff (path : AccessPath α) (provider : Provider α) (settings : Settings α)
    (ps : List (Predicate α × Qualifier)) (operand : Operand) (q : Qualifier) (observed : Observed provider operand D x)
    (constants : ∀ p ∈ ps, p.1.operand = some operand → p.2 = q → ∀ c ∈ p.1.comparisons, D c.2) :
    ∃ est, addAll { path, provider, settings } ps = .ok est ∧
      ((∀ p ∈ ps, p.1.operand = some operand → p.2 = q → p.1.admits x) ↔
        ∀ e ∈ est.recorded, e.concerns operand q = true → e.kind.admits x) := by
  refine ⟨_, addAll_eq _ ps, ?_⟩
  have within : Within ([] : List (Estimate α)) operand q D := fun e member => (List.not_mem_nil member).elim
  have agree : Admit ([] : List (Estimate α)) operand q x := fun e member => (List.not_mem_nil member).elim
  exact ((addedAll_meaning { path, provider, settings } observed within constants).trans (and_iff_right agree)).symm

/-- The value 4 passes `<> 0` and `< 10`, which become one range above the least value 0. -/
theorem addAll_admits_ints :
    let provider : Provider Float :=
      { range := fun _ _ _ _ => 1.0, point := fun _ _ => 0.0, nullFraction := fun _ => 0.0,
        least := fun _ => some (.int 0), greatest := fun _ => none, knows := fun _ => true }
    let a := Operand.column 1
    ∃ est, addAll { path := AccessPath.ofName "t", provider, settings := Settings.default }
        [(Predicate.comparison a .ne (.int 0), .base), (Predicate.comparison a .lt (.int 10), .base)] = .ok est ∧
      ∀ e ∈ est.recorded, e.concerns a .base = true → e.kind.admits (.int 4) := by
  intro provider a
  have observed : Observed provider a (fun value => ∃ i, value = .int i) (.int 4) := by
    refine ⟨Scalar.ints_ordered, ⟨4, rfl⟩, ?_, nofun⟩
    intro m known
    cases known
    exact ⟨⟨0, rfl⟩, by decide⟩
  obtain ⟨est, run, same⟩ := addAll_admits_iff (AccessPath.ofName "t") provider Settings.default
    [(Predicate.comparison a .ne (.int 0), .base), (Predicate.comparison a .lt (.int 10), .base)] a .base observed
    (by simp [Predicate.comparisons, Predicate.comparison, Comparator.isComparison, Scalar.isNull])
  refine ⟨est, run, same.mp ?_⟩
  simp only [List.forall_mem_cons]
  exact ⟨fun _ _ => by decide, fun _ _ => by decide, fun p member => (List.not_mem_nil member).elim⟩

end PathEstimator

end Selectivity
