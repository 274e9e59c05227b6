import Selectivity.Proofs.FiledEstimates
import Selectivity.Proofs.RangeMeaning

/-! What is filed is well formed, whatever the predicates were. Nulls and missing constants
never get into a range or an excluded value, only defaults are about no operand, and every
estimate stands in the list of its phase under the slot of its operand. -/

namespace Selectivity

open PathEstimator

variable {α : Type}

/-- Bounded on a side at least, and by no null. -/
structure Range.WellFormed (r : Range α) : Prop where
  bounded : r.start ≠ none ∨ r.stop ≠ none
  known : ∀ value ∈ r.constants, value.isNull = false

def EstimateKind.WellFormed : EstimateKind α → Prop
  | .range r => r.WellFormed
  | .notEquals value => value.isNull = false
  | _ => True

structure Estimate.WellFormed (e : Estimate α) : Prop where
  operand : e.operand = none → ∃ factor, e.kind = .default factor
  kind : e.kind.WellFormed

/-! ### Ranges -/

namespace Range

variable {r s : Range α}

variable [Quantity α]

theorem absorb?_bounded {value : Scalar α} {least greatest : Option (Scalar α)}
    (absorbs : r.absorb? value least greatest = some s) : s.start ≠ none ∨ s.stop ≠ none := by
  rcases absorb?_cases absorbs with ⟨b, _, _, rfl⟩ | ⟨b, _, _, rfl⟩ | ⟨m, _, _, _, rfl⟩ | ⟨m, _, _, _, rfl⟩
  · exact .inl (Option.some_ne_none _)
  · exact .inr (Option.some_ne_none _)
  · exact .inl (Option.some_ne_none _)
  · exact .inr (Option.some_ne_none _)

end Range

namespace PathEstimator

/-- Comparisons are made with known values only. -/
theorem comparisons_known {p : Predicate α} : ∀ c ∈ p.comparisons, c.2.isNull = false := by
  rw [Predicate.comparisons]
  split
  next op value _ => cases op <;> cases value <;> simp [Comparator.isComparison, Scalar.isNull]
  next low high _ => cases low <;> cases high <;> simp [Scalar.isNull]
  next => exact fun c none => (List.not_mem_nil none).elim

variable [Quantity α] {path : AccessPath α} {provider : Provider α} {operand : Operand} {d : Restriction α}
  {r s : Range α} {value : Scalar α}

omit [Quantity α] in
theorem fresh_wellFormed (known : d.constant.isNull = false) : (d.fresh path operand).WellFormed := by
  have constants : ∀ c ∈ (d.fresh path operand).constants, c.isNull = false :=
    fun c member => fresh_constants c member ▸ known
  cases d with
  | equal value => exact ⟨.inl (Option.some_ne_none _), constants⟩
  | unequal value => exact known
  | bounded side bound =>
    cases side with
    | lower => exact ⟨.inl (Option.some_ne_none _), constants⟩
    | upper => exact ⟨.inr (Option.some_ne_none _), constants⟩

theorem narrowed?_wellFormed (wellFormed : r.WellFormed) (known : d.constant.isNull = false)
    (narrows : d.narrowed? provider operand r = some s) : s.WellFormed := by
  constructor
  · cases d with
    | equal value => cases narrows
    | unequal value => exact Range.absorb?_bounded narrows
    | bounded side bound =>
      simp only [Restriction.narrowed?] at narrows
      split at narrows
      next =>
        cases narrows
        cases side with
        | lower => exact .inl (Option.some_ne_none _)
        | upper => exact .inr (Option.some_ne_none _)
      next => cases narrows
  · intro c member
    rcases narrowed?_constants narrows c member with old | rfl
    · exact wellFormed.known c old
    · exact known

theorem taking?_wellFormed (known : d.constant.isNull = false) (excluded : value.isNull = false)
    (takes : d.taking? path provider operand value = some s) : s.WellFormed := by
  refine ⟨?_, fun c member => ?_⟩
  · cases d with
    | equal _ | unequal _ => cases takes
    | bounded side bound => exact Range.absorb?_bounded takes
  · rcases taking?_constants takes c member with rfl | rfl
    · exact known
    · exact excluded

variable (est : PathEstimator α)

omit [Quantity α] in
theorem plainKind_wellFormed (p : Predicate α) :
    (est.plainKind p).WellFormed ∧ (p.operand = none → ∃ factor, est.plainKind p = .default factor) := by
  rw [plainKind]
  split
  next onOperand _ => exact ⟨trivial, fun absent => absurd (onOperand.symm.trans absent) (Option.some_ne_none _)⟩
  next onOperand _ => exact ⟨trivial, fun absent => absurd (onOperand.symm.trans absent) (Option.some_ne_none _)⟩
  next low high onOperand _ =>
    refine ⟨?_, fun absent => absurd (onOperand.symm.trans absent) (Option.some_ne_none _)⟩
    split
    next => trivial
    next known =>
      obtain ⟨lowKnown, highKnown⟩ := not_or.mp (mt (Bool.or_eq_true _ _).mpr known)
      refine ⟨.inl (Option.some_ne_none _), ?_⟩
      simp [Range.constants, Range.closed, lowKnown, highKnown]
  next => exact ⟨trivial, fun _ => ⟨_, rfl⟩⟩

omit [Quantity α] in
private theorem known_of_restricts {p : Predicate α} (restricts : p.restriction? = some (operand, d)) :
    p.operand ≠ none ∧ d.constant.isNull = false := by
  obtain ⟨onOperand, _⟩ := Predicate.restriction?_eq_some.mp restricts
  obtain ⟨_, member⟩ := restriction?_constant restricts
  exact ⟨onOperand ▸ Option.some_ne_none _, comparisons_known _ member⟩

/-- Whatever a call does to well-formed estimates, it makes well-formed ones of them. -/
theorem preserves_wellFormed (p : Predicate α × Qualifier) : est.Preserves p Estimate.WellFormed where
  plain _ := ⟨(est.plainKind_wellFormed p.1).2, (est.plainKind_wellFormed p.1).1⟩
  fresh operand d restricts := by
    obtain ⟨onOperand, known⟩ := known_of_restricts restricts
    exact ⟨fun absent => absurd absent onOperand, fresh_wellFormed known⟩
  narrowed operand d e r s restricts wellFormed isRange narrows := by
    obtain ⟨_, known⟩ := known_of_restricts restricts
    obtain ⟨only, shape⟩ := wellFormed
    rw [isRange] at only shape
    refine ⟨fun absent => ?_, narrowed?_wellFormed shape known narrows⟩
    obtain ⟨_, other⟩ := only absent
    cases other
  taken operand d e value s restricts wellFormed excludes takes := by
    obtain ⟨onOperand, known⟩ := known_of_restricts restricts
    have excluded := wellFormed.kind
    rw [excludes] at excluded
    exact ⟨fun absent => absurd absent onOperand, taking?_wellFormed known excluded takes⟩

theorem addedAll_wellFormed (path : AccessPath α) (provider : Provider α) (settings : Settings α)
    (ps : List (Predicate α × Qualifier)) :
    ∀ e ∈ (addedAll { path, provider, settings } ps).recorded, e.WellFormed :=
  addedAll_forall (fun p _ => preserves_wellFormed _ p) fun _ none => (List.not_mem_nil none).elim

end PathEstimator

/-! ### What is filed -/

namespace Filing

/-- A flag is set for a bound only, one bound is there at least, and none is null. -/
structure Range.WellFormed (r : Range α) : Prop where
  bounded : r.start ≠ none ∨ r.stop ≠ none
  startKnown : ∀ value, r.start = some value → value.isNull = false
  stopKnown : ∀ value, r.stop = some value → value.isNull = false
  startFlag : r.start = none → r.includeStart = false
  stopFlag : r.stop = none → r.includeStop = false

def Kind.WellFormed : Kind α → Prop
  | .range r => r.WellFormed
  | .notEquals value => value.isNull = false
  | _ => True

structure Estimate.WellFormed (e : Estimate α) : Prop where
  operand : e.operand = none → ∃ factor, e.kind = .default factor
  kind : e.kind.WellFormed

theorem Range.wellFormed_filed {r : Selectivity.Range α} (wellFormed : r.WellFormed) : r.filed.WellFormed where
  bounded := wellFormed.bounded.imp (mt Option.map_eq_none_iff.mp) (mt Option.map_eq_none_iff.mp)
  startKnown value start := by
    obtain ⟨b, found, rfl⟩ := Option.map_eq_some_iff.mp start
    exact wellFormed.known b.value (by simp [Selectivity.Range.constants, found])
  stopKnown value stop := by
    obtain ⟨b, found, rfl⟩ := Option.map_eq_some_iff.mp stop
    exact wellFormed.known b.value (by simp [Selectivity.Range.constants, found])
  startFlag none := by
    rw [Range.filed, Selectivity.Range.includesStart, Option.map_eq_none_iff.mp none]
    rfl
  stopFlag none := by
    rw [Range.filed, Selectivity.Range.includesStop, Option.map_eq_none_iff.mp none]
    rfl

theorem Estimate.wellFormed_filed {e : Selectivity.Estimate α} (wellFormed : e.WellFormed) : e.filed.WellFormed := by
  obtain ⟨only, shape⟩ := wellFormed
  constructor
  · intro absent
    obtain ⟨factor, kind⟩ := only absent
    exact ⟨factor, congrArg EstimateKind.filed kind⟩
  · rw [Selectivity.Estimate.filed]
    cases kind : e.kind with
    | range r => exact Range.wellFormed_filed (by rwa [kind] at shape)
    | notEquals value => rwa [kind] at shape
    | null | notNull | default _ => trivial

namespace Estimator

variable [Quantity α]

/-- No sequence of predicates is refused, nor is any predicate after it. What is filed is well
formed, and it is the list of its phase under the slot of its operand that it is filed in. The
lists hold what a single list of all estimates would hold for them. -/
theorem addAll_filed (path : AccessPath α) (provider : Provider α) (settings : Settings α)
    (ps : List (Predicate α × Qualifier)) :
    ∃ est : Estimator α, Estimator.addAll { path, provider, settings } ps = .ok est ∧
      (∀ p q, ∃ next, est.add p q = .ok next) ∧
      (∀ phase, ∀ e ∈ est.estimates phase, e.WellFormed ∧ e.slot = slotOf e.operand ∧ e.qualifier.phase = phase ∧
        e ∈ est.columnEstimates phase e.slot) ∧
      (∀ phase slot, ∀ e ∈ est.columnEstimates phase slot, e.slot = slot ∧ e ∈ est.estimates phase) ∧
      ∃ flat : PathEstimator α, PathEstimator.addAll { path, provider, settings } ps = .ok flat ∧ Files est flat ∧
        ∀ phase, est.estimates phase = (flat.estimates phase).map Selectivity.Estimate.filed := by
  have begun : Files ({ path, provider, settings } : Estimator α) { path, provider, settings } :=
    ⟨rfl, rfl, rfl, rfl, fun phase slot => by cases phase <;> rfl⟩
  obtain ⟨est, run, files⟩ := begun.addAll ps
  have known {f : Selectivity.Estimate α} {phase : Phase} {slot : Nat}
      (recorded : f ∈ (PathEstimator.addedAll { path, provider, settings } ps).columnEstimates phase slot) :
      f.filed.WellFormed ∧ f.qualifier.phase = phase ∧ slotOf f.operand = slot := by
    obtain ⟨member, placed⟩ := (PathEstimator.mem_columnEstimates _).mp recorded
    exact ⟨Estimate.wellFormed_filed (PathEstimator.addedAll_wellFormed path provider settings ps f member), placed⟩
  refine ⟨est, run, fun p q => ?_, fun phase e member => ?_, fun phase slot e member => ?_, _,
    PathEstimator.addAll_eq _ ps, files, files.estimates⟩
  · obtain ⟨next, call, _⟩ := files.add p q
    exact ⟨next, call⟩
  · obtain ⟨entry, inside, within⟩ := List.mem_flatMap.mp member
    obtain ⟨column, slot⟩ := files.placed inside e within
    rw [← slot, files.lists] at column
    obtain ⟨f, recorded, rfl⟩ := List.mem_map.mp column
    obtain ⟨wellFormed, phase, _⟩ := known recorded
    exact ⟨wellFormed, rfl, phase, files.lists _ _ ▸ column⟩
  · rw [files.lists] at member
    obtain ⟨f, recorded, rfl⟩ := List.mem_map.mp member
    rw [← PathEstimator.estimates_filter] at recorded
    obtain ⟨shown, slot'⟩ := List.mem_filter.mp recorded
    exact ⟨beq_iff_eq.mp slot', files.estimates phase ▸ List.mem_map_of_mem shown⟩

end Estimator
end Filing
end Selectivity
