import Selectivity.Proofs.HistogramShares

/-! What the statistics of a column give a range or a value. Every formula takes a part of the rows
that are not null: what is interpolated is clamped first, and the other factors are shares. -/

namespace Selectivity

open Quantity

namespace ColumnStats

variable {c : ColumnStats ℝ} {fallback part : ℝ}

theorem nonNull_unit (c : ColumnStats ℝ) : 0 ≤ c.nonNull ∧ c.nonNull ≤ 1 := clamp_unit _

/-- No bucket of the histogram, if there is one, has less than no rows. -/
def Binned (c : ColumnStats ℝ) : Prop := ∀ h, c.histogram = some h → ∀ b ∈ h.buckets, 0 ≤ b.count

/-- A fraction of all rows that leaves the null ones out. -/
def Valued (c : ColumnStats ℝ) (fraction : ℝ) : Prop := 0 ≤ fraction ∧ fraction ≤ c.nonNull

theorem Valued.unit {fraction : ℝ} (valued : c.Valued fraction) : 0 ≤ fraction ∧ fraction ≤ 1 :=
  ⟨valued.1, valued.2.trans c.nonNull_unit.2⟩

theorem valued_zero (c : ColumnStats ℝ) : c.Valued 0 := ⟨le_rfl, c.nonNull_unit.1⟩

theorem valued_mul (unit : 0 ≤ part ∧ part ≤ 1) : c.Valued (part * c.nonNull) :=
  ⟨mul_nonneg unit.1 c.nonNull_unit.1, mul_le_of_le_one_left c.nonNull_unit.1 unit.2⟩

theorem valued_ite {p : Prop} [Decidable p] {x y : ℝ} (first : c.Valued x) (second : c.Valued y) :
    c.Valued (if p then x else y) := by
  split
  next => exact first
  next => exact second

/-- Without a histogram to consult, every value has the same share. -/
theorem valueShare_eq {value : Option ℝ} (flat : c.histogram = none ∨ value = none) :
    c.valueShare value = 1 / max c.distinct 1 := by
  simp only [valueShare, larger_real, one_real]
  rcases flat with unbinned | rfl
  · rw [unbinned]
    rfl
  · cases c.histogram <;> rfl

/-- A share of one value is a part of the rows, whether it is read off a bucket or not. -/
theorem valueShare_part (binned : c.Binned) (value : Option ℝ) : 0 ≤ c.valueShare value ∧ c.valueShare value ≤ 1 := by
  have flat : 0 ≤ 1 / max c.distinct 1 ∧ 1 / max c.distinct 1 ≤ 1 := by
    have large : 1 ≤ max c.distinct 1 := le_max_right _ _
    exact ⟨div_nonneg zero_le_one (zero_le_one.trans large), (div_le_one (one_pos.trans_le large)).mpr large⟩
  rcases histogram : c.histogram with _ | h
  · rw [valueShare_eq (.inl histogram)]
    exact flat
  · rcases value with _ | value
    · rw [valueShare_eq (.inr rfl)]
      exact flat
    · have read : c.valueShare (some value) = (h.valueFraction? value).getD (1 / max c.distinct 1) := by
        simp only [valueShare, histogram, larger_real, one_real]
        rfl
      rw [read]
      rcases found : h.valueFraction? value with _ | part
      · exact flat
      · exact Histogram.valueFraction?_unit (binned h histogram) found

theorem oneValue_valued (binned : c.Binned) : c.Valued c.oneValue := valued_mul (valueShare_part binned none)

theorem point_valued (binned : c.Binned) (value : Scalar ℝ) : c.Valued (c.point value) := by
  rw [point]
  split
  next => exact c.valued_zero
  next =>
    have share := valued_mul (c := c) (valueShare_part binned value.position?)
    rw [clamp_of_unit share.1 (share.2.trans c.nonNull_unit.2)]
    exact share

/-- Whatever fraction the interpolation comes to, it is clamped before it is taken of the rows. -/
theorem numericRange_valued (binned : c.Binned) (low high : ℝ) (span : Span ℝ) (extrapolate : Bool) :
    c.Valued (c.numericRange low high span extrapolate) := by
  have one := oneValue_valued binned
  rw [numericRange]
  exact valued_ite (valued_ite one c.valued_zero) (valued_ite one (valued_mul (clamp_unit _)))

theorem otherRange_valued (binned : c.Binned) (known : 0 ≤ fallback ∧ fallback ≤ 1) (least greatest : Scalar ℝ)
    (start stop : Option (Bound ℝ)) (extrapolate : Bool) :
    c.Valued (c.otherRange fallback least greatest start stop extrapolate) := by
  rw [otherRange]
  exact valued_ite (valued_ite (oneValue_valued binned) c.valued_zero) (valued_mul known)

theorem range_valued (binned : c.Binned) (known : 0 ≤ fallback ∧ fallback ≤ 1) (start stop : Option (Bound ℝ))
    (extrapolate : Bool) : c.Valued (c.range fallback start stop extrapolate) := by
  rw [range]
  split
  next =>
    split
    next => exact numericRange_valued binned _ _ _ _
    next => exact otherRange_valued binned known _ _ _ _ _
  next => exact valued_mul known

end ColumnStats

end Selectivity
