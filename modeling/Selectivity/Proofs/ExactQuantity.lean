import Selectivity.AccessPath
import Selectivity.Estimate.Composition
import Selectivity.Settings
import Selectivity.Statistics.Table
import Mathlib.Analysis.Real.Sqrt
import Mathlib.Data.List.Sort

/-! Exact arithmetic. The formulas that run in binary64 are formulas over the real numbers too,
where nothing is rounded and every two quantities can be compared. -/

namespace Selectivity

namespace Quantity

/-- Comparing is a total order, as it is not among values of which some are no numbers. -/
structure Exact (α : Type) [Quantity α] : Prop where
  total : ∀ a b : α, le a b = true ∨ le b a = true
  trans : ∀ a b c : α, le a b = true → le b c = true → le a c = true
  antisymm : ∀ a b : α, le a b = true → le b a = true → a = b

open Classical in
noncomputable instance : Quantity ℝ where
  zero := 0
  one := 1
  ofInt i := i
  lt a b := decide (a < b)
  le a b := decide (a ≤ b)
  order a b := compare a b
  sqrt := Real.sqrt
  floor a := ⌊a⌋
  ceil a := ⌈a⌉

-- Found before the division that every `Quantity` has, which is the same one.
noncomputable instance : Div ℝ := DivInvMonoid.toDiv

section Real

variable {a b : ℝ}

@[simp] theorem zero_real : (zero : ℝ) = 0 := rfl

@[simp] theorem one_real : (one : ℝ) = 1 := rfl

@[simp] theorem lt_real : lt a b = true ↔ a < b := decide_eq_true_iff

@[simp] theorem le_real : le a b = true ↔ a ≤ b := decide_eq_true_iff

@[simp] theorem same_real : same a b = true ↔ a = b := by
  rw [same, Bool.and_eq_true, le_real, le_real, le_antisymm_iff]

@[simp] theorem larger_real : larger a b = max a b := by
  simp only [larger, lt_real, same_real, if_true]
  split
  next less => exact (max_eq_right less.le).symm
  next more => exact (max_eq_left (not_lt.mp more)).symm

@[simp] theorem smaller_real : smaller a b = min a b := by
  simp only [smaller, lt_real, same_real, if_true]
  split
  next less => exact (min_eq_right less.le).symm
  next more => exact (min_eq_left (not_lt.mp more)).symm

theorem clamp_real : clamp a = max 0 (min a 1) := by
  simp only [clamp, lt_real, zero_real, one_real]
  split
  next negative => rw [min_eq_left (negative.le.trans zero_le_one), max_eq_left negative.le]
  next positive =>
    split
    next beyond => rw [min_eq_right beyond.le, max_eq_right zero_le_one]
    next within => rw [min_eq_left (not_lt.mp within), max_eq_right (not_lt.mp positive)]

theorem ofNat_real (n : ℕ) : (ofNat n : ℝ) = n := Int.cast_natCast n

theorem floor_real : floor a = (⌊a⌋ : ℝ) := rfl

theorem ceil_real : ceil a = (⌈a⌉ : ℝ) := rfl

theorem whole_real : whole a = true ↔ (⌊a⌋ : ℝ) = a := by
  rw [whole, same_real, floor_real, zero_real]
  exact sub_eq_zero.trans eq_comm

theorem real_exact : Exact ℝ where
  total a b := by simpa using le_total a b
  trans a b c := by simpa using le_trans
  antisymm a b := by simpa using le_antisymm

end Real

end Quantity

/-! ### Defaults, not rounded -/

noncomputable def Settings.exact : Settings ℝ where
  predicateFactor := 1 / 2
  nullFraction := 1 / 10
  equalitySelectivity := 1 / 10
  rangeSelectivity := 1 / 3
  expansionBudget := 100
  nodeLimit := Nat.pow 2 20
  batchRows := 4000
  concurrentBatches := 2
  oltpRowCost := 125
  olapRowCost := 25 / 2
  olapStartupCost := 30000
  openLatency := 0
  closeLatency := 0
  scanRowCost := 1
  remoteByteCost := 1 / 50
  projectionRowCost := 1 / 2

noncomputable def AccessPath.exact (name : String) : AccessPath ℝ where
  name := name
  covering := true
  olap := false
  joinMethod := none
  extrapolated := []
  rowWidth := Quantity.ofNat 100

noncomputable def TableStats.exact (rows : ℝ) : TableStats ℝ where
  rows := rows
  equalityFallback := Settings.exact.equalitySelectivity
  rangeFallback := Settings.exact.rangeSelectivity

/-! ### Composition -/

/-- Sorting makes one list of all orders. -/
theorem compose_eq_of_perm {α : Type} [Quantity α] (exact : Quantity.Exact α) {xs ys : List α} (perm : xs.Perm ys) :
    compose xs = compose ys := by
  have sorted (zs : List α) : (zs.mergeSort Quantity.le).Pairwise fun a b => Quantity.le a b = true :=
    List.pairwise_mergeSort exact.trans (fun a b => by simpa using exact.total a b) zs
  have same : (xs.map Quantity.clamp).mergeSort Quantity.le = (ys.map Quantity.clamp).mergeSort Quantity.le := by
    refine List.Perm.eq_of_pairwise (fun a b _ _ => exact.antisymm a b) (sorted _) (sorted _) ?_
    exact ((List.mergeSort_perm _ _).trans (perm.map _)).trans (List.mergeSort_perm _ _).symm
  rw [compose, compose, same]

end Selectivity
