import Selectivity.Proofs.ColumnShares
import Selectivity.Proofs.EstimatorSteps
import Selectivity.Proofs.RangeMeaning
import Selectivity.Statistics.Table

/-! Ranges in exact arithmetic, of tables without histograms. A bound more, or one that no
longer belongs to its range, leaves fewer rows, as long as the same formula is applied. The
formula changes where the two bounds of a range meet, and where one of them is off the axis. -/

namespace Selectivity

open Quantity

/-- What a bound becomes when its range is narrowed. -/
def Tighter (old new : Option (Bound ℝ)) : Prop :=
  ∀ b, old = some b → ∃ c, new = some c ∧ c.value = b.value ∧ (c.inclusive = true → b.inclusive = true)

namespace Tighter

variable {b : Bound ℝ} {old new : Option (Bound ℝ)}

theorem refl (old : Option (Bound ℝ)) : Tighter old old := fun b bound => ⟨b, bound, rfl, id⟩

theorem none (new : Option (Bound ℝ)) : Tighter none new := nofun

theorem exclude (b : Bound ℝ) : Tighter (some b) (some { b with inclusive := false }) := by
  intro c same
  cases same
  exact ⟨_, rfl, rfl, nofun⟩

/-- A bound keeps its place, if it has one. -/
theorem place (tighter : Tighter old new) {x : Option ℝ} (on : ColumnStats.place? new = some x) :
    ColumnStats.place? old = some Option.none ∨
      ColumnStats.place? old = some x ∧ (new.any (·.inclusive) = true → old.any (·.inclusive) = true) := by
  cases old with
  | none => exact .inl rfl
  | some b =>
    obtain ⟨c, rfl, same, inclusive⟩ := tighter b rfl
    refine .inr ⟨?_, inclusive⟩
    rw [← on, ColumnStats.place?, ColumnStats.place?, same]

theorem place_none (tighter : Tighter old new) (off : ColumnStats.place? old = Option.none) :
    ColumnStats.place? new = Option.none := by
  cases old with
  | none => cases off
  | some b =>
    obtain ⟨c, rfl, same, _⟩ := tighter b rfl
    rwa [ColumnStats.place?, same]

theorem any (tighter : Tighter old new) (holds : Scalar ℝ → Bool) (some : old.any (holds ·.value) = true) :
    new.any (holds ·.value) = true := by
  obtain ⟨b, rfl, here⟩ := (Option.any_eq_true _ _).mp some
  obtain ⟨c, rfl, same, _⟩ := tighter b rfl
  rw [Option.any_some, same]
  exact here

end Tighter

namespace ColumnStats

variable {c : ColumnStats ℝ}

structure Sound (c : ColumnStats ℝ) : Prop where
  distinct : 1 ≤ c.distinct
  nulls : 0 ≤ c.nullFraction ∧ c.nullFraction ≤ 1
  ordered : ∀ least greatest, c.least = some least → c.greatest = some greatest → least.follows greatest = false
  unbinned : c.histogram = none

theorem Sound.binned (sound : c.Sound) : c.Binned := by
  intro h found
  cases sound.unbinned.symm.trans found

/-! ### The numeric axis -/

theorem exclude_le (sound : c.Sound) (low high fraction : ℝ) (bound : Option ℝ) (inclusive : Bool) :
    c.exclude low high fraction bound inclusive ≤ fraction := by
  cases bound with
  | none => exact le_rfl
  | some at_ =>
    have share := (valueShare_part sound.binned (some at_)).1
    simp only [exclude]
    split
    next => linarith
    next => exact le_rfl

theorem exclude_mono (sound : c.Sound) (low high : ℝ) {less more : ℝ} (fraction : less ≤ more)
    {old new : Option ℝ} {before after : Bool} (bound : old = none ∨ old = new ∧ (after = true → before = true)) :
    c.exclude low high less new after ≤ c.exclude low high more old before := by
  rcases bound with rfl | ⟨rfl, inclusive⟩
  · exact (exclude_le sound low high less new after).trans fraction
  · cases old with
    | none => exact fraction
    | some at_ =>
      cases after with
      | true => simpa [exclude, inclusive rfl] using fraction
      | false =>
        have share := (valueShare_part sound.binned (some at_)).1
        simp only [exclude]
        split <;> split <;> grind

theorem coverage_mono (sound : c.Sound) (low high width : ℝ) {first last first' last' : ℝ} (starts : first ≤ first')
    (stops : last' ≤ last) : c.coverage low high width first' last' ≤ c.coverage low high width first last := by
  simp only [coverage, le_real, zero_real, sound.unbinned]
  split
  next => exact le_rfl
  next wide =>
    apply div_le_div_of_nonneg_right
    · linarith
    · exact (not_le.mp wide).le

/-- The share of the non-null rows, before values beyond the bounds are told apart. -/
private theorem numericRange_eq (c : ColumnStats ℝ) (low high : ℝ) (span : Span ℝ) :
    c.numericRange low high span false =
      if span.stop.elim high (min · high) < span.start.elim low (max · low) then 0
      else clamp (c.exclude low high (c.exclude low high
        (c.coverage low high (high - low) (span.start.elim low (max · low)) (span.stop.elim high (min · high)))
        span.start span.includeStart) span.stop span.includeStop) * c.nonNull := by
  simp only [numericRange, lt_real, larger_real, smaller_real, zero_real, Bool.false_eq_true, if_false, Bool.and_false]

theorem numericRange_mono (sound : c.Sound) (low high : ℝ) {old new : Span ℝ}
    (starts : old.start = none ∨ old.start = new.start ∧ (new.includeStart = true → old.includeStart = true))
    (stops : old.stop = none ∨ old.stop = new.stop ∧ (new.includeStop = true → old.includeStop = true)) :
    c.numericRange low high new false ≤ c.numericRange low high old false := by
  have first : old.start.elim low (max · low) ≤ new.start.elim low (max · low) := by
    rcases starts with none | ⟨same, _⟩
    · rw [none]
      cases new.start with
      | none => exact le_rfl
      | some x => exact le_max_right x low
    · rw [same]
  have last : new.stop.elim high (min · high) ≤ old.stop.elim high (min · high) := by
    rcases stops with none | ⟨same, _⟩
    · rw [none]
      cases new.stop with
      | none => exact le_rfl
      | some x => exact min_le_right x high
    · rw [same]
  have nonNull := c.nonNull_unit.1
  rw [numericRange_eq, numericRange_eq]
  split
  next =>
    split
    next => exact le_rfl
    next => exact mul_nonneg (clamp_unit _).1 nonNull
  next here =>
    rw [if_neg (fun beyond => here (last.trans_lt (beyond.trans_le first)))]
    have covered := coverage_mono sound low high (high - low) first last
    exact mul_le_mul_of_nonneg_right
      (clamp_mono (exclude_mono sound low high (exclude_mono sound low high covered starts) stops)) nonNull

/-! ### Off the axis -/

variable {fallback : ℝ} {start stop start' stop' : Option (Bound ℝ)}

private theorem otherRange_eq (c : ColumnStats ℝ) (fallback : ℝ) (least greatest : Scalar ℝ)
    (start stop : Option (Bound ℝ)) :
    c.otherRange fallback least greatest start stop false =
      if start.any (·.value.follows greatest) || stop.any (·.value.precedes least) then 0
      else fallback * c.nonNull := by
  simp only [otherRange, Bool.false_eq_true, if_false, zero_real]

theorem otherRange_mono (c : ColumnStats ℝ) (known : 0 ≤ fallback ∧ fallback ≤ 1) (starts : Tighter start start')
    (stops : Tighter stop stop') (least greatest : Scalar ℝ) :
    c.otherRange fallback least greatest start' stop' false ≤ c.otherRange fallback least greatest start stop false := by
  have nonneg := (valued_mul (c := c) known).1
  rw [otherRange_eq, otherRange_eq]
  split
  next =>
    split
    next => exact le_rfl
    next => exact nonneg
  next here =>
    rw [if_neg]
    intro misses
    apply here
    rw [Bool.or_eq_true] at misses ⊢
    exact misses.imp (starts.any (·.follows greatest)) (stops.any (·.precedes least))

/-! ### Both -/

/-- The observed values have places on the axis. -/
def Numeric (c : ColumnStats ℝ) : Prop :=
  (∃ least, c.least = some least ∧ least.position?.isSome = true) ∧
    ∃ greatest, c.greatest = some greatest ∧ greatest.position?.isSome = true

/-- Unless a bound off the axis comes to others that are on it, the formula stays the same. -/
theorem range_mono (sound : c.Sound) (known : 0 ≤ fallback ∧ fallback ≤ 1) (starts : Tighter start start')
    (stops : Tighter stop stop')
    (axis : c.Numeric → (place? start).isSome = true → (place? stop).isSome = true →
      (place? start').isSome = true ∧ (place? stop').isSome = true) :
    c.range fallback start' stop' false ≤ c.range fallback start stop false := by
  have flat := c.otherRange_mono known starts stops
  rw [range, range]
  cases low : c.least with
  | none => exact le_rfl
  | some least =>
    cases high : c.greatest with
    | none => exact le_rfl
    | some greatest =>
      simp only
      cases lowPlace : least.position? with
      | none => exact flat least greatest
      | some bottom =>
        cases highPlace : greatest.position? with
        | none => exact flat least greatest
        | some top =>
          have numeric : c.Numeric :=
            ⟨⟨least, low, by rw [lowPlace]; rfl⟩, ⟨greatest, high, by rw [highPlace]; rfl⟩⟩
          cases first : place? start with
          | none =>
            rw [starts.place_none first]
            exact flat least greatest
          | some x =>
            cases last : place? stop with
            | none =>
              rw [stops.place_none last]
              cases place? start' <;> exact flat least greatest
            | some y =>
              obtain ⟨on, on'⟩ := axis numeric (by rw [first]; rfl) (by rw [last]; rfl)
              obtain ⟨x', first'⟩ := Option.isSome_iff_exists.mp on
              obtain ⟨y', last'⟩ := Option.isSome_iff_exists.mp on'
              rw [first', last']
              refine numericRange_mono sound bottom top ?_ ?_
              · rcases starts.place first' with missing | ⟨same, inclusive⟩
                · exact .inl (Option.some.inj (first.symm.trans missing))
                · exact .inr ⟨Option.some.inj (first.symm.trans same), inclusive⟩
              · rcases stops.place last' with missing | ⟨same, inclusive⟩
                · exact .inl (Option.some.inj (last.symm.trans missing))
                · exact .inr ⟨Option.some.inj (last.symm.trans same), inclusive⟩

theorem point_unit (c : ColumnStats ℝ) (value : Scalar ℝ) : 0 ≤ c.point value ∧ c.point value ≤ 1 := by
  rw [point]
  split
  next => exact ⟨le_rfl, zero_le_one⟩
  next => exact clamp_unit _

end ColumnStats

/-! ### Tables -/

namespace TableStats

variable {t : TableStats ℝ} {start stop start' stop' : Option (Bound ℝ)}

structure Sound (t : TableStats ℝ) : Prop where
  columns : ∀ operand c, t.column? operand = some c → c.Sound
  equality : 0 ≤ t.equalityFallback ∧ t.equalityFallback ≤ t.rangeFallback
  range : t.rangeFallback ≤ 1

theorem Sound.fallback (sound : t.Sound) : 0 ≤ t.rangeFallback ∧ t.rangeFallback ≤ 1 :=
  ⟨sound.equality.1.trans sound.equality.2, sound.range⟩

theorem exact_sound (rows : ℝ) : (TableStats.exact rows).Sound where
  columns := nofun
  equality := by norm_num [TableStats.exact, Settings.exact]
  range := by norm_num [TableStats.exact, Settings.exact]

theorem column?_withColumn (t : TableStats ℝ) (operand : Operand) (c : ColumnStats ℝ) :
    (t.withColumn operand c).column? operand = some c := by
  rw [column?, withColumn, List.lookup_cons, beq_self_eq_true]

theorem Sound.withColumn (sound : t.Sound) (operand : Operand) {c : ColumnStats ℝ} (known : c.Sound) :
    (t.withColumn operand c).Sound where
  columns other d found := by
    rw [column?, TableStats.withColumn, List.lookup_cons] at found
    split at found
    next =>
      cases found
      exact known
    next => exact sound.columns other d found
  equality := sound.equality
  range := sound.range

theorem point_unit (sound : t.Sound) (operand : Operand) (value : Scalar ℝ) :
    0 ≤ t.point operand value ∧ t.point operand value ≤ 1 := by
  rw [point]
  split
  next c _ => exact c.point_unit value
  next => exact ⟨sound.equality.1, sound.equality.2.trans sound.range⟩

theorem openRange_unit (sound : t.Sound) (operand : Operand) (start stop : Option (Bound ℝ)) :
    0 ≤ t.openRange operand start stop false ∧ t.openRange operand start stop false ≤ 1 := by
  rw [openRange]
  split
  next c found => exact (ColumnStats.range_valued (sound.columns operand c found).binned sound.fallback start stop false).unit
  next => exact sound.fallback

/-- Two bounds at one value, which both belong to the range. -/
def Meet (start stop : Option (Bound ℝ)) (value : Scalar ℝ) : Prop :=
  start = some ⟨value, true⟩ ∧ ∃ other, stop = some ⟨other, true⟩ ∧ value.equates other = true

theorem range_of_meet {value : Scalar ℝ} (meet : Meet start stop value) (operand : Operand) (extrapolate : Bool) :
    t.range operand start stop extrapolate = t.point operand value := by
  obtain ⟨rfl, other, rfl, equal⟩ := meet
  have equal : value.compare? other = some .eq := beq_iff_eq.mp equal
  simp only [range, equal, Bool.and_self, if_true]

/-- Two bounds in order. Bounds at one value leave room for that value alone, if both belong to
the range. -/
def Satisfiable (start stop : Option (Bound ℝ)) : Prop :=
  ∀ first last, start = some first → stop = some last →
    first.value.follows last.value = false ∧
      (first.value.equates last.value = true → first.inclusive = true ∧ last.inclusive = true)

theorem Meet.satisfiable {value : Scalar ℝ} (meet : Meet start stop value) : Satisfiable start stop := by
  obtain ⟨rfl, other, rfl, equal⟩ := meet
  rintro _ _ ⟨⟩ ⟨⟩
  have outcome : value.compare? other = some .eq := beq_iff_eq.mp equal
  exact ⟨by rw [Scalar.follows, outcome]; rfl, fun _ => ⟨rfl, rfl⟩⟩

theorem range_of_contrary (contrary : ¬ Satisfiable start stop) (operand : Operand) (extrapolate : Bool) :
    t.range operand start stop extrapolate = 0 := by
  simp only [Satisfiable, not_forall] at contrary
  obtain ⟨first, last, rfl, rfl, contrary⟩ := contrary
  rcases not_and_or.mp contrary with after | excluded
  · have outcome : first.value.compare? last.value = some .gt := beq_iff_eq.mp (Bool.eq_true_of_not_eq_false after)
    simp only [range, outcome, zero_real]
  · obtain ⟨equal, excluded⟩ := Classical.not_imp.mp excluded
    have outcome : first.value.compare? last.value = some .eq := beq_iff_eq.mp equal
    rw [← Bool.and_eq_true_iff] at excluded
    simp only [range, outcome, if_neg excluded, zero_real]

theorem range_of_apart (satisfiable : Satisfiable start stop) (apart : ∀ value, ¬ Meet start stop value)
    (operand : Operand) (extrapolate : Bool) :
    t.range operand start stop extrapolate = t.openRange operand start stop extrapolate := by
  rcases start with _ | ⟨value, mine⟩
  · rfl
  · rcases stop with _ | ⟨other, yours⟩
    · rfl
    · obtain ⟨before, included⟩ := satisfiable _ _ rfl rfl
      cases outcome : value.compare? other with
      | none => simp only [range, outcome]
      | some order =>
        cases order with
        | lt => simp only [range, outcome]
        | gt => exact absurd (beq_iff_eq.mpr outcome) (Bool.eq_false_iff.mp before)
        | eq =>
          have equal : value.equates other = true := beq_iff_eq.mpr outcome
          obtain ⟨rfl, rfl⟩ := included equal
          exact absurd ⟨rfl, other, rfl, equal⟩ (apart value)

theorem range_cases (t : TableStats ℝ) (operand : Operand) (start stop : Option (Bound ℝ)) (extrapolate : Bool) :
    (∃ value, Meet start stop value ∧ t.range operand start stop extrapolate = t.point operand value) ∨
      t.range operand start stop extrapolate = 0 ∨
      t.range operand start stop extrapolate = t.openRange operand start stop extrapolate := by
  by_cases met : ∃ value, Meet start stop value
  · obtain ⟨value, meet⟩ := met
    exact .inl ⟨value, meet, range_of_meet meet operand extrapolate⟩
  · by_cases satisfiable : Satisfiable start stop
    · exact .inr (.inr (range_of_apart satisfiable (not_exists.mp met) operand extrapolate))
    · exact .inr (.inl (range_of_contrary satisfiable operand extrapolate))

theorem range_unit (sound : t.Sound) (operand : Operand) (start stop : Option (Bound ℝ)) :
    0 ≤ t.range operand start stop false ∧ t.range operand start stop false ≤ 1 := by
  rcases t.range_cases operand start stop false with ⟨value, _, same⟩ | same | same
  · rw [same]
    exact point_unit sound operand value
  · rw [same]
    exact ⟨le_rfl, zero_le_one⟩
  · rw [same]
    exact openRange_unit sound operand start stop

/-- The statistics of an operand tell places on the axis. -/
def Numeric (t : TableStats ℝ) (operand : Operand) : Prop := ∃ c, t.column? operand = some c ∧ c.Numeric

theorem range_mono (sound : t.Sound) (operand : Operand) (half : start = none ∨ stop = none)
    (starts : Tighter start start') (stops : Tighter stop stop') (apart : ∀ value, ¬ Meet start' stop' value)
    (axis : t.Numeric operand → (ColumnStats.place? start).isSome = true → (ColumnStats.place? stop).isSome = true →
      (ColumnStats.place? start').isSome = true ∧ (ColumnStats.place? stop').isSome = true) :
    t.range operand start' stop' false ≤ t.range operand start stop false := by
  have before : t.range operand start stop false = t.openRange operand start stop false := by
    rcases half with rfl | rfl
    · rfl
    · cases start <;> rfl
  have wider : t.openRange operand start' stop' false ≤ t.openRange operand start stop false := by
    rw [openRange, openRange]
    cases found : t.column? operand with
    | none => exact le_rfl
    | some c =>
      exact ColumnStats.range_mono (sound.columns operand c found) sound.fallback starts stops
        fun numeric => axis ⟨c, found, numeric⟩
  rw [before]
  rcases t.range_cases operand start' stop' false with ⟨value, meet, _⟩ | same | same
  · exact absurd meet (apart value)
  · exact same ▸ (openRange_unit sound operand start stop).1
  · exact same ▸ wider

end TableStats
end Selectivity
