import Selectivity.AccessPath.Price
import Selectivity.Proofs.EstimatorSteps
import Selectivity.Proofs.ExactComposition

/-! The row counts of a price. Every count composes the selectivities of the one before it
together with further ones, so that the counts fall from the rows of the table to the rows of
the output, whatever the statistics say. -/

namespace Selectivity.PathEstimator

open Quantity

theorem composed_le_of_sublist (est : PathEstimator ℝ) {es fs : List (Estimate ℝ)} (fewer : es.Sublist fs) :
    est.composed fs ≤ est.composed es :=
  compose_le_of_sublist ((fewer.filter _).map _)

/-- Selecting by more qualifiers selects no more rows. -/
theorem selectivityOf_anti (est : PathEstimator ℝ) {qs rs : List Qualifier} (within : qs ⊆ rs) :
    est.selectivityOf rs ≤ est.selectivityOf qs := by
  apply est.composed_le_of_sublist
  apply List.monotone_filter_right
  intro e chosen
  rw [List.contains_iff_mem] at chosen ⊢
  exact within chosen

theorem totalSelectivity_le (est : PathEstimator ℝ) (qs : List Qualifier) :
    est.totalSelectivity ≤ est.selectivityOf qs :=
  est.composed_le_of_sublist List.filter_sublist

theorem totalSelectivity_nonneg (est : PathEstimator ℝ) : 0 ≤ est.totalSelectivity := compose_nonneg _

theorem selectivityOf_le_one (est : PathEstimator ℝ) (qs : List Qualifier) : est.selectivityOf qs ≤ 1 :=
  compose_le_one _

/-- A table of less than no rows counts as empty. -/
theorem price_rows (est : PathEstimator ℝ) (baseRows : ℝ) :
    (est.price baseRows).scannedRows = max baseRows 0 * est.selectivityOf [.base] ∧
      (est.price baseRows).filteredRows = max baseRows 0 * est.selectivityOf [.base, .filterBase] ∧
      (est.price baseRows).outputRows = max baseRows 0 * est.totalSelectivity := by
  have rows : (if lt zero baseRows then baseRows else zero) = max baseRows 0 := by
    simp only [lt_real, zero_real]
    split
    next some => exact (max_eq_left some.le).symm
    next none => exact (max_eq_right (not_lt.mp none)).symm
  simp only [price, rows, and_self]

/-- Every sequence of predicates can be priced, and no filter of the price leaves more rows than
it is given. -/
theorem addAll_price_ordered (path : AccessPath ℝ) (provider : Provider ℝ) (settings : Settings ℝ)
    (ps : List (Predicate ℝ × Qualifier)) (baseRows : ℝ) :
    let start : PathEstimator ℝ := { path, provider, settings }
    ∃ est, start.addAll ps = .ok est ∧
      0 ≤ (est.price baseRows).outputRows ∧
      (est.price baseRows).outputRows ≤ (est.price baseRows).filteredRows ∧
      (est.price baseRows).filteredRows ≤ (est.price baseRows).scannedRows ∧
      (est.price baseRows).scannedRows ≤ max baseRows 0 := by
  intro start
  refine ⟨start.addedAll ps, start.addAll_eq ps, ?_⟩
  have nonneg : 0 ≤ max baseRows 0 := le_max_right baseRows 0
  obtain ⟨scanned, filtered, output⟩ := (start.addedAll ps).price_rows baseRows
  rw [scanned, filtered, output]
  refine ⟨mul_nonneg nonneg (totalSelectivity_nonneg _), ?_, ?_, ?_⟩
  · exact mul_le_mul_of_nonneg_left (totalSelectivity_le _ _) nonneg
  · exact mul_le_mul_of_nonneg_left (selectivityOf_anti _ (by simp)) nonneg
  · exact mul_le_of_le_one_right nonneg (selectivityOf_le_one _ _)

end Selectivity.PathEstimator
