import Selectivity.Proofs.OperandIndependence
import Selectivity.Proofs.RangeMeaning

/-! How bounds meet in ranges. A bound goes to a range that lacks one on its side, if there is
such a range, so that a range without a start never stands beside one without a stop. Of lower
and upper bounds alone, as many as possible meet in closed ranges. -/

namespace Selectivity

open PathEstimator

variable {α : Type}

/-- The ranges among some estimates, in order. -/
def Estimate.ranges (es : List (Estimate α)) : List (Range α) := es.filterMap Estimate.range?

/-- The ranges recorded for an operand under a qualifier. -/
def PathEstimator.rangesOn (est : PathEstimator α) (operand : Operand) (q : Qualifier) : List (Range α) :=
  Estimate.ranges (Estimate.about (some operand, q) est.recorded)

/-- A comparison with a known constant that bounds an operand on one side. -/
def Predicate.bounds (side : Side) (p : Predicate α) : Bool :=
  match p.kind with
  | .compare op (some value) =>
    !value.isNull && (op == side.comparator true || op == side.comparator false)
  | _ => false

/-- How many of the ranges have a bound on a side. -/
def PathEstimator.Side.held (side : Side) (rs : List (Range α)) : Nat := rs.countP (!side.openIn ·)

/-- On one of the sides every range has a bound. -/
def Range.Paired (rs : List (Range α)) : Prop := ∃ side : Side, ∀ r ∈ rs, side.openIn r = false

/-! ### Lists of ranges -/

theorem Estimate.range?_eq_some {e : Estimate α} {r : Range α} : e.range? = some r ↔ e.kind = .range r := by
  rw [range?]
  cases e.kind <;> simp

theorem Estimate.ranges_append (es fs : List (Estimate α)) : ranges (es ++ fs) = ranges es ++ ranges fs :=
  List.filterMap_append

theorem Estimate.ranges_cons (e : Estimate α) (es : List (Estimate α)) :
    ranges (e :: es) = e.range?.toList ++ ranges es := by
  rw [ranges, List.filterMap_cons]
  cases e.range? <;> rfl

namespace Range

variable {r s : Range α} {rs before after : List (Range α)}

theorem Paired.apart (paired : Paired rs) : ¬ ((∃ r ∈ rs, r.start = none) ∧ ∃ r ∈ rs, r.stop = none) := by
  rintro ⟨⟨r, member, noStart⟩, s, member', noStop⟩
  obtain ⟨side, closed⟩ := paired
  cases side with
  | lower => simpa [Side.openIn, noStart] using closed r member
  | upper => simpa [Side.openIn, noStop] using closed s member'

theorem Paired.replace (paired : Paired (before ++ r :: after))
    (narrower : ∀ side : Side, side.openIn s = true → side.openIn r = true) : Paired (before ++ s :: after) := by
  obtain ⟨side, closed⟩ := paired
  rw [List.forall_mem_append, List.forall_mem_cons] at closed
  obtain ⟨earlier, here, later⟩ := closed
  refine ⟨side, List.forall_mem_append.mpr ⟨earlier, List.forall_mem_cons.mpr ⟨?_, later⟩⟩⟩
  exact Bool.eq_false_iff.mpr fun opened => Bool.eq_false_iff.mp here (narrower side opened)

theorem Paired.append_closed (paired : Paired rs) (closed : ∀ side : Side, side.openIn s = false) :
    Paired (rs ++ [s]) := by
  obtain ⟨side, others⟩ := paired
  exact ⟨side, List.forall_mem_append.mpr ⟨others, List.forall_mem_singleton.mpr (closed side)⟩⟩

/-- If one side of every range has a bound, the ranges are as many as the bounds on that side. -/
theorem Paired.length (paired : Paired rs) :
    rs.length = max (Side.lower.held rs) (Side.upper.held rs) ∧
      (rs.filter (!·.isOpenEnded)).length = min (Side.lower.held rs) (Side.upper.held rs) := by
  have closed : ∀ r : Range α, (!r.isOpenEnded) = (!Side.lower.openIn r && !Side.upper.openIn r) :=
    fun r => Bool.not_or _ _
  obtain ⟨side, all⟩ := paired
  have full : side.held rs = rs.length := List.countP_eq_length.mpr fun r member => by rw [all r member]; rfl
  rw [← List.countP_eq_length_filter]
  cases side with
  | lower =>
    have rest : rs.countP (!·.isOpenEnded) = Side.upper.held rs :=
      List.countP_congr fun r member => by rw [closed, all r member, Bool.not_false, Bool.true_and]
    have fewer : Side.upper.held rs ≤ rs.length := List.countP_le_length
    omega
  | upper =>
    have rest : rs.countP (!·.isOpenEnded) = Side.lower.held rs :=
      List.countP_congr fun r member => by rw [closed, all r member, Bool.not_false, Bool.and_true]
    have fewer : Side.lower.held rs ≤ rs.length := List.countP_le_length
    omega

variable [Quantity α]

theorem absorb?_openIn {value : Scalar α} {least greatest : Option (Scalar α)}
    (absorbs : r.absorb? value least greatest = some s) (side : Side) (opened : side.openIn s = true) :
    side.openIn r = true := by
  rcases absorb?_cases absorbs with ⟨b, bounded, _, rfl⟩ | ⟨b, bounded, _, rfl⟩ | ⟨m, _, _, _, rfl⟩ | ⟨m, _, _, _, rfl⟩
  all_goals cases side <;> first | exact opened | cases opened

end Range

namespace PathEstimator

variable {r s : Range α} {bound : Bound α}

theorem Side.set_openIn (side : Side) (r : Range α) (bound : Bound α) (other : Side) :
    other.openIn (side.set r bound) = (other.openIn r && other != side) := by
  cases side <;> cases other <;> simp [Side.openIn, Side.set, Range.setStart, Range.setStop]

theorem Side.only_openIn (side : Side) (bound : Bound α) (extrapolate : Bool) (other : Side) :
    other.openIn (side.only bound extrapolate) = (other != side) := by
  cases side <;> cases other <;> rfl

variable [Quantity α] {path : AccessPath α} {provider : Provider α} {operand : Operand} {q : Qualifier}
  {d : Restriction α} {p : Predicate α}

theorem narrowed?_openIn (narrows : d.narrowed? provider operand r = some s) (side : Side)
    (opened : side.openIn s = true) : side.openIn r = true := by
  cases d with
  | equal value => cases narrows
  | unequal value => exact Range.absorb?_openIn narrows side opened
  | bounded own bound =>
    simp only [Restriction.narrowed?] at narrows
    split at narrows
    next =>
      cases narrows
      rw [Side.set_openIn, Bool.and_eq_true] at opened
      exact opened.1
    next => cases narrows

/-- A range that a comparison brings, alone or with one of the excluded values. -/
inductive Brings (path : AccessPath α) (provider : Provider α) (operand : Operand) (d : Restriction α)
    (values : List (Scalar α)) (s : Range α) : Prop
  | alone (fresh : d.fresh path operand = .range s)
  | taking (value : Scalar α) (recorded : value ∈ values) (takes : d.taking? path provider operand value = some s)

/-- It can only be open against a side on which the comparison gives a bound. -/
theorem Brings.openIn {values : List (Scalar α)} (brings : Brings path provider operand d values s) {side : Side}
    (opened : side.openIn s = true) : ∃ own bound, d = .bounded own bound ∧ own.openIn s = false := by
  cases d with
  | equal value =>
    cases brings with
    | alone fresh =>
      cases fresh
      cases side <;> cases opened
    | taking _ _ takes => cases takes
  | unequal value =>
    cases brings with
    | alone fresh => cases fresh
    | taking _ _ takes => cases takes
  | bounded own bound =>
    refine ⟨own, bound, rfl, Bool.eq_false_iff.mpr fun opened => ?_⟩
    have alone : own.openIn (own.only bound (path.extrapolates operand)) = true := by
      cases brings with
      | alone fresh =>
        cases fresh
        exact opened
      | taking _ _ takes => exact Range.absorb?_openIn takes own opened
    rw [Side.only_openIn, bne_self_eq_false] at alone
    cases alone

/-- What a comparison does to the ranges of its operand, beside which some values are excluded. -/
inductive Evolves (path : AccessPath α) (provider : Provider α) (operand : Operand) (d : Restriction α)
    (values : List (Scalar α)) : List (Range α) → List (Range α) → Prop
  | narrowed (before : List (Range α)) (r : Range α) (after : List (Range α)) (s : Range α)
      (narrows : d.narrowed? provider operand r = some s) :
      Evolves path provider operand d values (before ++ r :: after) (before ++ s :: after)
  | brought (rs : List (Range α)) (s : Range α) (kept : ∀ r ∈ rs, d.narrowed? provider operand r = none)
      (brings : Brings path provider operand d values s) : Evolves path provider operand d values rs (rs ++ [s])
  | unchanged (rs : List (Range α)) (fresh : ∀ s, d.fresh path operand ≠ .range s) :
      Evolves path provider operand d values rs rs

theorem Restricts.evolves {es fs : List (Estimate α)} (restricts : Restricts path provider operand q d p es fs)
    (concern : ∀ e ∈ es, e.concerns operand q = true) :
    Evolves path provider operand d (es.filterMap Estimate.excluded?) (Estimate.ranges es) (Estimate.ranges fs) := by
  have keeps (kept : ∀ e ∈ es, narrows? provider operand q d e = none) :
      ∀ r ∈ Estimate.ranges es, d.narrowed? provider operand r = none := by
    intro r member
    obtain ⟨e, inside, here⟩ := List.mem_filterMap.mp member
    have unchanged := kept e inside
    rw [narrows?, changeRange?, if_pos (concern e inside), here] at unchanged
    exact Option.map_eq_none_iff.mp unchanged
  cases restricts with
  | @narrowed before e after r s found =>
    obtain ⟨rfl, _, _, kind, narrows⟩ := found
    rw [Estimate.ranges_append, Estimate.ranges_append, Estimate.ranges_cons, Estimate.ranges_cons,
      Estimate.range?_eq_some.mpr kind]
    exact .narrowed _ r _ s narrows
  | @taken before e after value s kept found =>
    have recorded : value ∈ es.filterMap Estimate.excluded? :=
      List.mem_filterMap.mpr ⟨e, by simp [found.split], by rw [Estimate.excluded?, found.kind]⟩
    have rest : Estimate.ranges es = Estimate.ranges (before ++ after) := by
      have noRange : e.range? = none := by rw [Estimate.range?, found.kind]
      rw [found.split, Estimate.ranges_append, Estimate.ranges_cons, noRange, Estimate.ranges_append]
      rfl
    rw [Estimate.ranges_append, ← rest]
    exact .brought _ s (keeps kept) (.taking value recorded found.takes)
  | recorded kept _ =>
    rw [Estimate.ranges_append]
    cases d with
    | equal value => exact .brought _ _ (keeps kept) (.alone rfl)
    | unequal value =>
      rw [Estimate.ranges_cons]
      refine (List.append_nil _).symm ▸ .unchanged _ fun s same => ?_
      cases same
    | bounded side bound => exact .brought _ _ (keeps kept) (.alone rfl)

theorem Evolves.paired {values : List (Scalar α)} {rs ss : List (Range α)}
    (evolves : Evolves path provider operand d values rs ss) (paired : Range.Paired rs) : Range.Paired ss := by
  cases evolves with
  | narrowed before r after s narrows => exact paired.replace (narrowed?_openIn narrows)
  | brought _ s kept brings =>
    by_cases opened : ∃ side : Side, side.openIn s = true
    · -- No range waited for the bound, or it would have gone there.
      obtain ⟨side, opened⟩ := opened
      obtain ⟨own, bound, rfl, closed⟩ := brings.openIn opened
      refine ⟨own, List.forall_mem_append.mpr ⟨fun r member => ?_, List.forall_mem_singleton.mpr closed⟩⟩
      simpa [Restriction.narrowed?] using kept r member
    · exact paired.append_closed fun side => Bool.eq_false_iff.mpr fun here => opened ⟨side, here⟩
  | unchanged => exact paired

/-- Among bounds alone, each is held by one range. -/
theorem Evolves.held {own : Side} {rs ss : List (Range α)}
    (evolves : Evolves path provider operand (.bounded own bound) [] rs ss) (side : Side) :
    side.held ss = side.held rs + if side = own then 1 else 0 := by
  cases evolves with
  | narrowed before r after s narrows =>
    simp only [Restriction.narrowed?] at narrows
    split at narrows
    next opened =>
      cases narrows
      simp only [Side.held, List.countP_append, List.countP_cons, Side.set_openIn]
      cases side <;> cases own <;> simp [opened, add_assoc]
    next => cases narrows
  | brought _ s _ brings =>
    cases brings with
    | alone fresh =>
      cases fresh
      simp only [Side.held, List.countP_append, List.countP_singleton, Side.only_openIn]
      cases side <;> cases own <;> rfl
    | taking value recorded _ => cases recorded
  | unchanged _ fresh => cases fresh _ rfl

/-! ### Runs -/

variable (est : PathEstimator α)

omit [Quantity α] in
theorem plainKind_closed {p : Predicate α} (range : est.plainKind p = .range r) (side : Side) :
    side.openIn r = false := by
  rw [plainKind] at range
  split at range
  next => cases range
  next => cases range
  next =>
    split at range
    next => cases range
    next =>
      cases range
      cases side <;> rfl
  next => cases range

/-- One more predicate leaves the ranges of every operand paired. -/
theorem step_paired {es : List (Estimate α)} (p : Predicate α × Qualifier)
    (paired : Range.Paired (Estimate.ranges (Estimate.about (some operand, q) es))) :
    Range.Paired (Estimate.ranges (Estimate.about (some operand, q) (est.step es p))) := by
  by_cases own : subject p = (some operand, q)
  · rw [Estimate.about, est.step_filter (· == (some operand, q)) (beq_iff_eq.mpr own), step]
    split
    next o d restricts =>
      obtain ⟨rfl, rfl⟩ : o = operand ∧ p.2 = q := by
        have onOperand := (Predicate.restriction?_eq_some.mp restricts).1
        rw [subject, onOperand] at own
        cases own
        exact ⟨rfl, rfl⟩
      exact (Restricts.evolves (restricts_iff.mpr rfl) fun e member => (List.mem_filter.mp member).2).paired paired
    next =>
      rw [Estimate.ranges_append, Estimate.ranges_cons]
      cases range : (entry p.1 p.2 (est.plainKind p.1)).range? with
      | none => exact (List.append_nil _).symm ▸ paired
      | some r => exact paired.append_closed (est.plainKind_closed (Estimate.range?_eq_some.mp range))
  · rwa [Estimate.about, est.step_filter_other (· == (some operand, q)) (beq_eq_false_iff_ne.mpr own)]

theorem run_paired {es : List (Estimate α)} (ps : List (Predicate α × Qualifier))
    (paired : Range.Paired (Estimate.ranges (Estimate.about (some operand, q) es))) :
    Range.Paired (Estimate.ranges (Estimate.about (some operand, q) (ps.foldl est.step es))) := by
  induction ps generalizing es with
  | nil => exact paired
  | cons p ps ih => exact ih (est.step_paired p paired)

omit [Quantity α] in
theorem restriction?_of_bounds {own : Side} (onOperand : p.operand = some operand) (bounds : p.bounds own = true) :
    (∃ bound, p.restriction? = some (operand, .bounded own bound)) ∧ ∀ side, p.bounds side = decide (side = own) := by
  rw [Predicate.bounds] at bounds
  split at bounds
  next op value kind =>
    obtain ⟨known, given⟩ := Bool.and_eq_true_iff.mp bounds
    have known : value.isNull = false := by simpa using known
    simp only [Predicate.restriction?, Predicate.bounds, onOperand, kind, known]
    cases own <;> cases op <;>
      first | exact absurd given (by decide) | exact ⟨⟨_, rfl⟩, fun side => by cases side <;> rfl⟩
  next => cases bounds

/-- Bounds alone leave nothing but ranges, each of which holds what it was given. -/
theorem run_held {es : List (Estimate α)} {ps : List (Predicate α × Qualifier)}
    (own : ∀ p ∈ ps, subject p = (some operand, q) ∧ ∃ side, p.1.bounds side = true)
    (before : ∀ e ∈ es, e.concerns operand q = true ∧ e.excluded? = none) (side : Side) :
    side.held (Estimate.ranges (ps.foldl est.step es)) =
      side.held (Estimate.ranges es) + ps.countP (·.1.bounds side) := by
  induction ps generalizing es with
  | nil => rfl
  | cons p ps ih =>
    obtain ⟨⟨about, given, bounds⟩, rest⟩ := List.forall_mem_cons.mp own
    obtain ⟨onOperand, onQualifier⟩ := Prod.mk.inj about
    obtain ⟨⟨bound, restriction⟩, sides⟩ := restriction?_of_bounds onOperand bounds
    have restricts : Restricts est.path est.provider operand q (.bounded given bound) p.1 es (est.step es p) := by
      apply restricts_iff.mpr
      rw [step, restriction, onQualifier]
    have concerns (kind : EstimateKind α) : (entry p.1 q kind).concerns operand q = true := by
      simp [entry, Estimate.concerns, onOperand]
    have after : ∀ e ∈ est.step es p, e.concerns operand q = true ∧ e.excluded? = none :=
      restricts.forall ⟨concerns _, rfl⟩ (fun e r s old _ _ => ⟨old.1, rfl⟩)
        (fun e value s _ _ _ => ⟨concerns _, rfl⟩) before
    have evolves := restricts.evolves fun e member => (before e member).1
    rw [List.filterMap_eq_nil_iff.mpr fun e member => (before e member).2] at evolves
    rw [List.foldl_cons, ih rest after, evolves.held side, List.countP_cons, sides side]
    simp only [decide_eq_true_eq]
    omega

/-- No operand ever has both a range without a start and one without a stop under a qualifier.
If it is given bounds only, the ranges are as many as the bounds of the more frequent kind, and as
many of them are closed as there are bounds of the other kind. -/
theorem addAll_ranges_paired (path : AccessPath α) (provider : Provider α) (settings : Settings α)
    (ps : List (Predicate α × Qualifier)) (operand : Operand) (q : Qualifier) :
    let added := about (some operand, q) ps
    let lowers := added.countP (·.1.bounds .lower)
    let uppers := added.countP (·.1.bounds .upper)
    ∃ est, addAll { path, provider, settings } ps = .ok est ∧
      ¬ ((∃ r ∈ est.rangesOn operand q, r.start = none) ∧ ∃ r ∈ est.rangesOn operand q, r.stop = none) ∧
      ((∀ p ∈ added, ∃ side, p.1.bounds side = true) →
        (est.rangesOn operand q).length = max lowers uppers ∧
          ((est.rangesOn operand q).filter (!·.isOpenEnded)).length = min lowers uppers) := by
  intro added lowers uppers
  let start : PathEstimator α := { path, provider, settings }
  refine ⟨start.addedAll ps, start.addAll_eq ps, ?_⟩
  have initial : Range.Paired (Estimate.ranges (Estimate.about (some operand, q) ([] : List (Estimate α)))) :=
    ⟨.lower, fun r none => (List.not_mem_nil none).elim⟩
  have paired : Range.Paired ((start.addedAll ps).rangesOn operand q) := by
    rw [rangesOn, addedAll_recorded]
    exact start.run_paired ps initial
  refine ⟨paired.apart, fun bounds => ?_⟩
  have held (side : Side) :
      side.held ((start.addedAll ps).rangesOn operand q) = added.countP (·.1.bounds side) := by
    rw [rangesOn, addedAll_recorded, run_about]
    have own : ∀ p ∈ added, subject p = (some operand, q) ∧ ∃ side, p.1.bounds side = true :=
      fun p member => ⟨beq_iff_eq.mp (List.mem_filter.mp member).2, bounds p member⟩
    exact (start.run_held own (fun e none => (List.not_mem_nil none).elim) side).trans (Nat.zero_add _)
  have lengths := paired.length
  rwa [held, held] at lengths

/-- Two lower bounds and an upper one make two ranges, of which one is closed. -/
theorem addAll_ranges_paired_three :
    let provider : Provider Float :=
      { range := fun _ _ _ _ => 1.0, point := fun _ _ => 0.0, nullFraction := fun _ => 0.0,
        least := fun _ => some (.int 0), greatest := fun _ => none, knows := fun _ => true }
    let a := Operand.column 1
    ∃ est, addAll { path := AccessPath.ofName "t", provider, settings := Settings.default }
        [(Predicate.comparison a .ge (.int 5), .base), (Predicate.comparison a .gt (.int 7), .base),
          (Predicate.comparison a .lt (.int 10), .base)] = .ok est ∧
      (est.rangesOn a .base).length = 2 ∧ ((est.rangesOn a .base).filter (!·.isOpenEnded)).length = 1 := by
  intro provider a
  obtain ⟨est, run, _, lengths⟩ := addAll_ranges_paired (AccessPath.ofName "t") provider Settings.default
    [(Predicate.comparison a .ge (.int 5), .base), (Predicate.comparison a .gt (.int 7), .base),
      (Predicate.comparison a .lt (.int 10), .base)] a .base
  refine ⟨est, run, lengths ?_⟩
  simp only [about, List.forall_mem_filter, List.forall_mem_cons]
  exact ⟨fun _ => ⟨.lower, rfl⟩, fun _ => ⟨.lower, rfl⟩, fun _ => ⟨.upper, rfl⟩,
    fun p member => (List.not_mem_nil member).elim⟩

end PathEstimator
end Selectivity
