import Selectivity.Proofs.ExactQuantity

/-! Composition in exact arithmetic. The sorted values are composed from the inside out: the
first one counts in full, and the square root of what the others come to counts besides. One
more value never makes more of it, and a smaller one never does. It comes to no more than the
smallest value, and to no less than the product of all, or than the square of the smallest. -/

namespace Selectivity

open Quantity

noncomputable section

/-- What values in this order come to, from the first level on. -/
def leveled : List ℝ → ℝ
  | [] => 1
  | x :: xs => x * √(leveled xs)

/-- The clamped values in ascending order. -/
def levels (xs : List ℝ) : List ℝ := (xs.map clamp).mergeSort le

end

variable {x y : ℝ} {xs ys : List ℝ}

theorem leveled_nonneg (nonneg : ∀ x ∈ xs, 0 ≤ x) : 0 ≤ leveled xs := by
  cases xs with
  | nil => exact zero_le_one
  | cons x xs => exact mul_nonneg (nonneg x List.mem_cons_self) (Real.sqrt_nonneg _)

private theorem dampen_nonneg (nonneg : 0 ≤ x) (level : Nat) : 0 ≤ dampen x level := by
  cases level with
  | zero => exact nonneg
  | succ level => exact Real.sqrt_nonneg _

private theorem dampen_mul (nonneg : 0 ≤ x) (y : ℝ) (level : Nat) :
    dampen (x * y) level = dampen x level * dampen y level := by
  induction level with
  | zero => rfl
  | succ level ih =>
    rw [dampen, ih]
    exact Real.sqrt_mul (dampen_nonneg nonneg level) _

private theorem dampen_sqrt (x : ℝ) (level : Nat) : dampen √x level = dampen x (level + 1) := by
  induction level with
  | zero => rfl
  | succ level ih => exact congrArg Real.sqrt ih

private theorem dampen_one (level : Nat) : dampen (1 : ℝ) level = 1 := by
  induction level with
  | zero => rfl
  | succ level ih =>
    rw [dampen, ih]
    exact Real.sqrt_one

private theorem composeFrom_eq (total : ℝ) (level : Nat) (nonneg : ∀ x ∈ xs, 0 ≤ x) :
    composeFrom total level xs = total * dampen (leveled xs) level := by
  induction xs generalizing total level with
  | nil => rw [leveled, dampen_one, mul_one, composeFrom]
  | cons x xs ih =>
    obtain ⟨first, rest⟩ := List.forall_mem_cons.mp nonneg
    rw [composeFrom, ih _ _ rest, leveled, dampen_mul first, dampen_sqrt, mul_assoc]

/-! ### Sorted lists -/

/-- No value is below the square of the smallest one. -/
theorem sq_le_leveled (nonneg : 0 ≤ x) (small : x ≤ 1) (least : ∀ y ∈ xs, x ≤ y) : x * x ≤ leveled xs := by
  induction xs with
  | nil => exact mul_le_one₀ small nonneg small
  | cons y xs ih =>
    obtain ⟨first, rest⟩ := List.forall_mem_cons.mp least
    exact mul_le_mul first (Real.le_sqrt_of_sq_le (by rw [sq]; exact ih rest)) nonneg (nonneg.trans first)

theorem leveled_le_one (unit : ∀ x ∈ xs, 0 ≤ x ∧ x ≤ 1) : leveled xs ≤ 1 := by
  induction xs with
  | nil => exact le_rfl
  | cons x xs ih =>
    obtain ⟨⟨_, small⟩, rest⟩ := List.forall_mem_cons.mp unit
    exact mul_le_one₀ small (Real.sqrt_nonneg _) (Real.sqrt_le_one.mpr (ih rest))

theorem leveled_cons_le (nonneg : 0 ≤ x) (unit : ∀ y ∈ xs, 0 ≤ y ∧ y ≤ 1) : leveled (x :: xs) ≤ x :=
  mul_le_of_le_one_right nonneg (Real.sqrt_le_one.mpr (leveled_le_one unit))

/-- Values that are independent of each other would come to their product. -/
theorem prod_le_leveled (unit : ∀ x ∈ xs, 0 ≤ x ∧ x ≤ 1) : xs.prod ≤ leveled xs := by
  induction xs with
  | nil => exact le_rfl
  | cons x xs ih =>
    obtain ⟨⟨first, _⟩, rest⟩ := List.forall_mem_cons.mp unit
    have nonneg := leveled_nonneg fun y member => (rest y member).1
    have dampened : leveled xs ≤ √(leveled xs) :=
      Real.le_sqrt_of_sq_le (by rw [sq]; exact mul_le_of_le_one_left nonneg (leveled_le_one rest))
    rw [List.prod_cons, leveled]
    exact mul_le_mul_of_nonneg_left ((ih rest).trans dampened) first

private theorem orderedInsert_of_least (least : ∀ y ∈ xs, x ≤ y) : xs.orderedInsert (· ≤ ·) x = x :: xs := by
  cases xs with
  | nil => rfl
  | cons y xs => exact List.orderedInsert_cons_of_le _ xs (least y List.mem_cons_self)

/-- The inserted value outweighs what the values after it gain by one more square root. -/
theorem leveled_orderedInsert_le (nonneg : 0 ≤ x) (small : x ≤ 1) (values : ∀ y ∈ xs, 0 ≤ y)
    (sorted : xs.Pairwise (· ≤ ·)) : leveled (xs.orderedInsert (· ≤ ·) x) ≤ leveled xs := by
  induction xs with
  | nil =>
    rw [List.orderedInsert_nil, leveled, leveled, leveled, Real.sqrt_one, mul_one]
    exact small
  | cons y xs ih =>
    obtain ⟨least, sorted⟩ := List.pairwise_cons.mp sorted
    obtain ⟨first, rest⟩ := List.forall_mem_cons.mp values
    by_cases below : x ≤ y
    · have outweighs : x * x ≤ leveled (y :: xs) :=
        sq_le_leveled nonneg small (List.forall_mem_cons.mpr ⟨below, fun z member => below.trans (least z member)⟩)
      rw [List.orderedInsert_cons_of_le _ xs below]
      calc x * √(leveled (y :: xs))
          ≤ √(leveled (y :: xs)) * √(leveled (y :: xs)) :=
            mul_le_mul_of_nonneg_right (Real.le_sqrt_of_sq_le (by rwa [sq])) (Real.sqrt_nonneg _)
        _ = leveled (y :: xs) := Real.mul_self_sqrt (leveled_nonneg values)
    · rw [List.orderedInsert_of_not_le _ xs below]
      exact mul_le_mul_of_nonneg_left (Real.sqrt_le_sqrt (ih rest sorted)) first

theorem leveled_orderedInsert_mono (values : ∀ z ∈ xs, 0 ≤ z) (sorted : xs.Pairwise (· ≤ ·)) (less : x ≤ y) :
    leveled (xs.orderedInsert (· ≤ ·) x) ≤ leveled (xs.orderedInsert (· ≤ ·) y) := by
  induction xs generalizing x with
  | nil => exact mul_le_mul_of_nonneg_right less (Real.sqrt_nonneg _)
  | cons v xs ih =>
    obtain ⟨least, sorted⟩ := List.pairwise_cons.mp sorted
    obtain ⟨first, rest⟩ := List.forall_mem_cons.mp values
    by_cases below : y ≤ v
    · rw [List.orderedInsert_cons_of_le _ xs below, List.orderedInsert_cons_of_le _ xs (less.trans below)]
      exact mul_le_mul_of_nonneg_right less (Real.sqrt_nonneg _)
    · rw [List.orderedInsert_of_not_le _ xs below]
      by_cases before : x ≤ v
      · -- `x` comes to stand before `v`, and `y` behind it: `v` is one level apart on the two sides.
        have shifted : leveled (v :: xs) ≤ leveled (xs.orderedInsert (· ≤ ·) y) := by
          have replaced := ih rest sorted (not_le.mp below).le
          rwa [orderedInsert_of_least least] at replaced
        rw [List.orderedInsert_cons_of_le _ xs before]
        exact mul_le_mul before (Real.sqrt_le_sqrt shifted) (Real.sqrt_nonneg _) first
      · rw [List.orderedInsert_of_not_le _ xs before]
        exact mul_le_mul_of_nonneg_left (Real.sqrt_le_sqrt (ih rest sorted less)) first

private theorem pos_of_mul_sqrt (nonneg : 0 ≤ x) (positive : 0 < x * √y) : 0 < x ∧ 0 < √y := by
  constructor
  · exact pos_of_mul_pos_left positive (Real.sqrt_nonneg y)
  · exact pos_of_mul_pos_right positive nonneg

theorem leveled_orderedInsert_strict (last : 0 ≤ y) (values : ∀ z ∈ xs, 0 ≤ z) (sorted : xs.Pairwise (· ≤ ·))
    (less : x < y) (positive : 0 < leveled (xs.orderedInsert (· ≤ ·) y)) :
    leveled (xs.orderedInsert (· ≤ ·) x) < leveled (xs.orderedInsert (· ≤ ·) y) := by
  induction xs generalizing x with
  | nil => exact mul_lt_mul_of_pos_right less (pos_of_mul_sqrt last positive).2
  | cons v xs ih =>
    obtain ⟨least, sorted⟩ := List.pairwise_cons.mp sorted
    obtain ⟨first, rest⟩ := List.forall_mem_cons.mp values
    by_cases below : y ≤ v
    · rw [List.orderedInsert_cons_of_le _ xs below] at positive ⊢
      rw [List.orderedInsert_cons_of_le _ xs (less.le.trans below)]
      exact mul_lt_mul_of_pos_right less (pos_of_mul_sqrt last positive).2
    · rw [List.orderedInsert_of_not_le _ xs below] at positive ⊢
      obtain ⟨some, others⟩ := pos_of_mul_sqrt first positive
      by_cases before : x ≤ v
      · have shifted : leveled (v :: xs) < leveled (xs.orderedInsert (· ≤ ·) y) := by
          have replaced := ih rest sorted (not_le.mp below) (Real.sqrt_pos.mp others)
          rwa [orderedInsert_of_least least] at replaced
        rw [List.orderedInsert_cons_of_le _ xs before]
        calc x * √(leveled (v :: xs))
            ≤ v * √(leveled (v :: xs)) := mul_le_mul_of_nonneg_right before (Real.sqrt_nonneg _)
          _ < v * √(leveled (xs.orderedInsert (· ≤ ·) y)) :=
            mul_lt_mul_of_pos_left (Real.sqrt_lt_sqrt (leveled_nonneg values) shifted) some
      · have nonneg : 0 ≤ leveled (xs.orderedInsert (· ≤ ·) x) := by
          apply leveled_nonneg
          intro z member
          rcases List.mem_cons.mp ((List.perm_orderedInsert _ x xs).mem_iff.mp member) with rfl | member
          · exact first.trans (not_le.mp before).le
          · exact rest z member
        rw [List.orderedInsert_of_not_le _ xs before]
        exact mul_lt_mul_of_pos_left
          (Real.sqrt_lt_sqrt nonneg (ih rest sorted less (Real.sqrt_pos.mp others))) some

/-! ### Any order -/

theorem clamp_unit (x : ℝ) : 0 ≤ clamp x ∧ clamp x ≤ 1 := by
  rw [clamp_real]
  exact ⟨le_max_left 0 _, max_le zero_le_one (min_le_right x 1)⟩

theorem clamp_of_unit (nonneg : 0 ≤ x) (small : x ≤ 1) : clamp x = x := by
  rw [clamp_real, min_eq_left small, max_eq_right nonneg]

theorem clamp_mono (less : x ≤ y) : clamp x ≤ clamp y := by
  rw [clamp_real, clamp_real]
  exact max_le_max_left 0 (min_le_min_right 1 less)

private theorem levels_sorted (xs : List ℝ) : (levels xs).Pairwise (· ≤ ·) := by
  have sorted := List.pairwise_mergeSort real_exact.trans
    (fun a b => by simpa only [Bool.or_eq_true] using real_exact.total a b) (xs.map clamp)
  exact sorted.imp fun less => le_real.mp less

private theorem levels_unit : ∀ y ∈ levels xs, 0 ≤ y ∧ y ≤ 1 := by
  intro y member
  obtain ⟨x, _, rfl⟩ := List.mem_map.mp (List.mem_mergeSort.mp member)
  exact clamp_unit x

private theorem levels_nonneg : ∀ y ∈ levels xs, 0 ≤ y := fun y member => (levels_unit y member).1

private theorem levels_cons (x : ℝ) (xs : List ℝ) :
    levels (x :: xs) = (levels xs).orderedInsert (· ≤ ·) (clamp x) := by
  refine List.Perm.eq_of_pairwise (fun a b _ _ => le_antisymm) (levels_sorted _)
    ((levels_sorted xs).orderedInsert (clamp x) (levels xs)) ?_
  have inserted : (levels xs).orderedInsert (· ≤ ·) (clamp x) |>.Perm (clamp x :: xs.map clamp) :=
    (List.perm_orderedInsert _ _ _).trans ((List.mergeSort_perm _ _).cons _)
  exact (List.mergeSort_perm _ _).trans inserted.symm

theorem compose_eq (xs : List ℝ) : compose xs = leveled (levels xs) := by
  have composed : composeFrom one 0 (levels xs) = one * dampen (leveled (levels xs)) 0 :=
    composeFrom_eq one 0 levels_nonneg
  exact composed.trans (one_mul _)

theorem compose_nonneg (xs : List ℝ) : 0 ≤ compose xs := by
  rw [compose_eq]
  exact leveled_nonneg levels_nonneg

theorem compose_cons_le (x : ℝ) (xs : List ℝ) : compose (x :: xs) ≤ compose xs := by
  rw [compose_eq, compose_eq, levels_cons]
  exact leveled_orderedInsert_le (clamp_unit x).1 (clamp_unit x).2 levels_nonneg (levels_sorted xs)

/-- More values never come to more, wherever they stand among the others. -/
theorem compose_le_of_sublist (fewer : xs.Sublist ys) : compose ys ≤ compose xs := by
  obtain ⟨more, perm⟩ := fewer.exists_perm_append
  rw [compose_eq_of_perm real_exact (perm.trans List.perm_append_comm)]
  clear perm
  induction more with
  | nil => exact le_rfl
  | cons x more ih => exact (compose_cons_le x (more ++ xs)).trans ih

theorem compose_le_one (xs : List ℝ) : compose xs ≤ 1 := by
  have whole := compose_le_of_sublist xs.nil_sublist
  rwa [compose_eq [], levels, List.map_nil, List.mergeSort_nil, leveled] at whole

theorem compose_cons_mono (less : clamp x ≤ clamp y) (xs : List ℝ) : compose (x :: xs) ≤ compose (y :: xs) := by
  rw [compose_eq, compose_eq, levels_cons, levels_cons]
  exact leveled_orderedInsert_mono levels_nonneg (levels_sorted xs) less

/-- A larger value is only lost on a list with a zero in it. -/
theorem compose_cons_strict (less : clamp x < clamp y) (some : compose (y :: xs) ≠ 0) :
    compose (x :: xs) < compose (y :: xs) := by
  have positive := lt_of_le_of_ne (compose_nonneg _) some.symm
  rw [compose_eq, levels_cons] at positive
  rw [compose_eq, compose_eq, levels_cons, levels_cons]
  exact leveled_orderedInsert_strict (clamp_unit y).1 levels_nonneg (levels_sorted xs) less positive

/-! ### One value among others -/

/-- The order of the values does not matter, one more among them never makes more of it, and a
smaller one in the place of one of them never does. -/
theorem compose_monotone :
    (∀ xs ys : List ℝ, xs.Perm ys → compose xs = compose ys) ∧
      (∀ (before after : List ℝ) (x : ℝ), compose (before ++ x :: after) ≤ compose (before ++ after)) ∧
      ∀ (before after : List ℝ) (x y : ℝ), x ≤ y →
        compose (before ++ x :: after) ≤ compose (before ++ y :: after) := by
  refine ⟨fun xs ys => compose_eq_of_perm real_exact, fun before after x => ?_, fun before after x y less => ?_⟩
  · exact compose_le_of_sublist ((List.sublist_cons_self x after).append_left before)
  · have front (z : ℝ) : compose (before ++ z :: after) = compose (z :: (before ++ after)) :=
      compose_eq_of_perm real_exact List.perm_middle
    rw [front x, front y]
    exact compose_cons_mono (clamp_mono less) (before ++ after)

/-- A value that is inserted first moves all others one level down. -/
theorem compose_monotone_shifted :
    [1 / 2, 1 / 4, 0].Perm [0, 1 / 4, (1 / 2 : ℝ)] ∧ (1 / 8 : ℝ) ≤ 1 / 4 ∧
      compose [1 / 2, 1 / 4, 0] = compose [0, 1 / 4, (1 / 2 : ℝ)] ∧
      compose ([1 / 2] ++ 1 / 8 :: [(1 / 4 : ℝ)]) ≤ compose ([1 / 2] ++ [(1 / 4 : ℝ)]) ∧
      compose ([1 / 2] ++ 1 / 8 :: [(1 : ℝ)]) ≤ compose ([1 / 2] ++ 1 / 4 :: [(1 : ℝ)]) := by
  have perm : [1 / 2, 1 / 4, 0].Perm [0, 1 / 4, (1 / 2 : ℝ)] := (List.reverse_perm _).symm
  have less : (1 / 8 : ℝ) ≤ 1 / 4 := by norm_num
  obtain ⟨order, inserted, replaced⟩ := compose_monotone
  exact ⟨perm, less, order _ _ perm, inserted _ _ _, replaced _ _ _ _ less⟩

/-- The bounds are those of the clamped values. -/
theorem compose_bounds (xs : List ℝ) (filled : xs ≠ []) :
    (xs.map clamp).prod ≤ compose xs ∧
      ∃ least ∈ xs.map clamp, (∀ y ∈ xs.map clamp, least ≤ y) ∧ compose xs ≤ least ∧ least ^ 2 ≤ compose xs := by
  have perm : (levels xs).Perm (xs.map clamp) := List.mergeSort_perm _ _
  have sorted := levels_sorted xs
  have unit : ∀ y ∈ levels xs, 0 ≤ y ∧ y ≤ 1 := levels_unit
  rw [compose_eq, ← perm.prod_eq]
  refine ⟨prod_le_leveled unit, ?_⟩
  cases inOrder : levels xs with
  | nil =>
    rw [inOrder] at perm
    exact absurd (List.map_eq_nil_iff.mp perm.nil_eq.symm) filled
  | cons least rest =>
    rw [inOrder] at perm sorted unit
    obtain ⟨below, _⟩ := List.pairwise_cons.mp sorted
    obtain ⟨⟨nonneg, small⟩, others⟩ := List.forall_mem_cons.mp unit
    have smallest : ∀ y ∈ least :: rest, least ≤ y := List.forall_mem_cons.mpr ⟨le_rfl, below⟩
    refine ⟨least, perm.mem_iff.mp List.mem_cons_self, fun y member => smallest y (perm.mem_iff.mpr member),
      leveled_cons_le nonneg others, ?_⟩
    rw [sq]
    exact sq_le_leveled nonneg small smallest

/-- A value above one counts as one. -/
theorem compose_bounds_outside :
    [2, 1 / 2, 1 / 3] ≠ ([] : List ℝ) ∧ ([2, 1 / 2, 1 / 3].map clamp).prod ≤ compose [2, 1 / 2, (1 / 3 : ℝ)] ∧
      ∃ least ∈ [2, 1 / 2, (1 / 3 : ℝ)].map clamp,
        compose [2, 1 / 2, (1 / 3 : ℝ)] ≤ least ∧ least ^ 2 ≤ compose [2, 1 / 2, (1 / 3 : ℝ)] := by
  have filled : [2, 1 / 2, 1 / 3] ≠ ([] : List ℝ) := List.cons_ne_nil _ _
  obtain ⟨product, least, member, _, most, square⟩ := compose_bounds _ filled
  exact ⟨filled, product, least, member, most, square⟩

end Selectivity
