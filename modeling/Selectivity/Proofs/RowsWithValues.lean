import Selectivity.Proofs.ExactRanges

/-! Rows that hold a value. Whatever is asked of a column with statistics, a range or one value,
the answer is a share of the rows that are not null. -/

namespace Selectivity

open Quantity

namespace TableStats

variable {t : TableStats ℝ} {c : ColumnStats ℝ} {operand : Operand}

/-- Of a column with statistics, no range and no value is estimated at more rows than hold a value. -/
theorem selectivity_le_nonNull (found : t.column? operand = some c) (binned : c.Binned)
    (known : 0 ≤ t.rangeFallback ∧ t.rangeFallback ≤ 1) :
    let nonNull := max 0 (min (1 - c.nullFraction) 1)
    (∀ start stop extrapolate,
      0 ≤ t.range operand start stop extrapolate ∧ t.range operand start stop extrapolate ≤ nonNull) ∧
    ∀ value, 0 ≤ t.point operand value ∧ t.point operand value ≤ nonNull := by
  intro nonNull
  have whole : c.nonNull = nonNull := clamp_real
  have point (value : Scalar ℝ) : c.Valued (t.point operand value) := by
    rw [point, found]
    exact ColumnStats.point_valued binned value
  refine ⟨fun start stop extrapolate => ?_, fun value => whole ▸ point value⟩
  rw [← whole]
  rcases t.range_cases operand start stop extrapolate with ⟨value, _, same⟩ | same | same
  · rw [same]
    exact point value
  · rw [same]
    exact c.valued_zero
  · rw [same, openRange, found]
    exact ColumnStats.range_valued binned known start stop extrapolate

end TableStats

/-! ### Overlapping buckets -/

/-- A quarter of the rows is null, and the others are in buckets that overlap. -/
noncomputable def ColumnStats.overlapping : ColumnStats ℝ where
  distinct := 0
  nullFraction := 1 / 4
  least := some (.int 0)
  greatest := some (.date 100)
  histogram := some .touching

theorem ColumnStats.overlapping_binned : overlapping.Binned := by
  rintro h ⟨⟩
  norm_num [Histogram.touching]

namespace TableStats

noncomputable def overlapping : TableStats ℝ := (TableStats.exact 400).withColumn (.column 1) .overlapping

theorem selectivity_le_nonNull_overlapping :
    overlapping.column? (.column 1) = some .overlapping ∧ ColumnStats.overlapping.Binned ∧
      (0 ≤ overlapping.rangeFallback ∧ overlapping.rangeFallback ≤ 1) ∧
      (∀ start stop extrapolate, overlapping.range (.column 1) start stop extrapolate ≤ 3 / 4) ∧
      ∀ value, overlapping.point (.column 1) value ≤ 3 / 4 := by
  have found : overlapping.column? (.column 1) = some .overlapping := column?_withColumn _ _ _
  have known : 0 ≤ overlapping.rangeFallback ∧ overlapping.rangeFallback ≤ 1 := (exact_sound 400).fallback
  have bounds := selectivity_le_nonNull found ColumnStats.overlapping_binned known
  have quarter : max 0 (min (1 - ColumnStats.overlapping.nullFraction) 1) = 3 / 4 := by
    norm_num [ColumnStats.overlapping]
  rw [quarter] at bounds
  exact ⟨found, ColumnStats.overlapping_binned, known,
    fun start stop extrapolate => (bounds.1 start stop extrapolate).2, fun value => (bounds.2 value).2⟩

end TableStats
end Selectivity
