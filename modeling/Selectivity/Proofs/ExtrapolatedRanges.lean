import Selectivity.Proofs.AddedPredicates

/-! Ranges beyond the observed values. With extrapolation no range on the axis is estimated to be
empty, wherever it lies, unless its bounds contradict each other. There is one exception: a range
of a single value is estimated as an equality, and an equality is not extrapolated. -/

namespace Selectivity

open Quantity

/-! ### Columns -/

namespace ColumnStats

variable {c : ColumnStats ℝ} {value : Scalar ℝ} {start stop : Option (Bound ℝ)}

theorem nonNull_pos (nulls : c.nullFraction < 1) : 0 < c.nonNull := by
  rw [nonNull, clamp_real, one_real]
  exact lt_max_of_lt_right (lt_min (sub_pos.mpr nulls) one_pos)

theorem valueShare_pos {value : Option ℝ} (flat : c.histogram = none ∨ value = none) : 0 < c.valueShare value := by
  have large : 1 ≤ max c.distinct 1 := le_max_right _ _
  rw [valueShare_eq flat]
  positivity

/-- Some row holds a value, even if no row was seen to hold it. -/
theorem oneValue_pos (nulls : c.nullFraction < 1) : 0 < c.oneValue :=
  mul_pos (valueShare_pos (.inr rfl)) (nonNull_pos nulls)

/-- Wherever the interpolation leaves nothing, one value is left. -/
theorem numericRange_pos (nulls : c.nullFraction < 1) (low high : ℝ) (span : Span ℝ) :
    0 < c.numericRange low high span true := by
  have one := oneValue_pos nulls
  simp only [numericRange, if_true, Bool.and_true, le_real, zero_real]
  split
  next => exact one
  next =>
    split
    next => exact one
    next found => exact not_le.mp found

theorem range_pos (nulls : c.nullFraction < 1) (numeric : c.Numeric) (first : (place? start).isSome = true)
    (last : (place? stop).isSome = true) (fallback : ℝ) : 0 < c.range fallback start stop true := by
  obtain ⟨⟨least, low, least_on⟩, greatest, high, greatest_on⟩ := numeric
  obtain ⟨bottom, lowest⟩ := Option.isSome_iff_exists.mp least_on
  obtain ⟨top, highest⟩ := Option.isSome_iff_exists.mp greatest_on
  obtain ⟨x, first⟩ := Option.isSome_iff_exists.mp first
  obtain ⟨y, last⟩ := Option.isSome_iff_exists.mp last
  simp only [range, low, high, lowest, highest, first, last]
  exact numericRange_pos nulls _ _ _

theorem point_pos_iff (nulls : c.nullFraction < 1) (unbinned : c.histogram = none) (known : value.isNull = false) :
    0 < c.point value ↔ c.misses value = false := by
  rw [point, known, Bool.false_or]
  cases misses : c.misses value with
  | true => simp
  | false =>
    have share : 0 < c.valueShare value.position? * c.nonNull :=
      mul_pos (valueShare_pos (.inl unbinned)) (nonNull_pos nulls)
    simpa [clamp_real] using share

end ColumnStats

/-! ### Tables -/

namespace TableStats

variable {t : TableStats ℝ} {c : ColumnStats ℝ} {operand : Operand} {start stop : Option (Bound ℝ)}

/-- An extrapolated range is estimated above zero exactly if its bounds do not contradict each
other, and it is no single value beyond the observed ones. -/
theorem range_extrapolated_pos_iff (found : t.column? operand = some c) (numeric : c.Numeric)
    (unbinned : c.histogram = none) (nulls : c.nullFraction < 1)
    (first : (ColumnStats.place? start).isSome = true) (last : (ColumnStats.place? stop).isSome = true) :
    0 < t.range operand start stop true ↔
      Satisfiable start stop ∧ ∀ value, Meet start stop value → c.misses value = false := by
  by_cases satisfiable : Satisfiable start stop
  · by_cases met : ∃ value, Meet start stop value
    · obtain ⟨value, meet⟩ := met
      have known : value.isNull = false := by
        rw [meet.1] at first
        cases value <;> first | rfl | cases first
      have share : t.range operand start stop true = c.point value := by
        rw [range_of_meet meet, point, found]
      rw [share, ColumnStats.point_pos_iff nulls unbinned known]
      constructor
      · intro observed
        refine ⟨satisfiable, fun other again => ?_⟩
        cases meet.1.symm.trans again.1
        exact observed
      · rintro ⟨_, observed⟩
        exact observed value meet
    · have apart := not_exists.mp met
      have share : t.range operand start stop true = c.range t.rangeFallback start stop true := by
        rw [range_of_apart satisfiable apart, openRange, found]
      rw [share]
      exact iff_of_true (ColumnStats.range_pos nulls numeric first last _)
        ⟨satisfiable, fun value meet => absurd meet (apart value)⟩
  · rw [range_of_contrary satisfiable]
    exact iff_of_false (lt_irrefl 0) fun positive => satisfiable positive.1

end TableStats

/-! ### Beyond 100 -/

theorem ColumnStats.hundred_numeric : hundred.Numeric := ⟨⟨_, rfl, rfl⟩, _, rfl, rfl⟩

namespace TableStats

/-- A range past the observed values still has rows. -/
theorem range_extrapolated_pos_past :
    0 < hundred.range (.column 1) (some ⟨.int 150, true⟩) (some ⟨.int 200, true⟩) true := by
  apply (range_extrapolated_pos_iff (column?_withColumn _ _ _) ColumnStats.hundred_numeric rfl
    (by norm_num [ColumnStats.hundred]) rfl rfl).mpr
  have unequal : (Scalar.int 150).equates (.int 200 : Scalar ℝ) = false := by decide
  constructor
  · rintro _ _ ⟨⟩ ⟨⟩
    exact ⟨by decide, fun equal => absurd equal (Bool.eq_false_iff.mp unequal)⟩
  · rintro _ ⟨⟨⟩, _, ⟨⟩, equal⟩
    exact absurd equal (Bool.eq_false_iff.mp unequal)

/-- A range of one such value has none, as it is estimated as an equality. -/
theorem range_extrapolated_none :
    let past : Option (Bound ℝ) := some ⟨.int 150, true⟩
    hundred.column? (.column 1) = some .hundred ∧ ColumnStats.hundred.Sound ∧ ColumnStats.hundred.Numeric ∧
      ColumnStats.hundred.nullFraction < 1 ∧ Satisfiable past past ∧
      ¬ 0 < hundred.range (.column 1) past past true := by
  intro past
  have meet : Meet past past (.int 150) := ⟨rfl, _, rfl, by decide⟩
  have found : hundred.column? (.column 1) = some .hundred := column?_withColumn _ _ _
  have beyond : ColumnStats.hundred.misses (.int 150) = true := by decide
  have none : hundred.range (.column 1) past past true = 0 := by
    rw [range_of_meet meet, point, found]
    simp only [ColumnStats.point, beyond, Bool.or_true, if_true, zero_real]
  refine ⟨found, ColumnStats.hundred_sound, ColumnStats.hundred_numeric, by norm_num [ColumnStats.hundred],
    meet.satisfiable, ?_⟩
  rw [none]
  exact lt_irrefl 0

end TableStats
end Selectivity
