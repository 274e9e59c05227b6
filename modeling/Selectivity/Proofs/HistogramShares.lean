import Selectivity.Proofs.ExactComposition
import Selectivity.Statistics.Histogram
import Mathlib

/-! Histograms in exact arithmetic. A bucket gives an interval the part of its rows that its width
and the interval have in common, and all of them where it has no width. Summed over the buckets,
in whatever order they come and however they overlap, the shares of intervals are those of a
distribution whose atoms are the buckets without width. -/

namespace Selectivity

open Quantity

namespace Bucket

variable {b : Bucket ℝ} {low low' mid high high' : ℝ}

def values (b : Bucket ℝ) : Set ℝ := Set.Icc b.lower b.upper

/-- The part of a bucket that lies in `[low, high]`. -/
noncomputable def part (b : Bucket ℝ) (low high : ℝ) : ℝ :=
  if b.lower < b.upper then max 0 (min high b.upper - max low b.lower) / (b.upper - b.lower)
  else if low ≤ b.lower ∧ b.lower ≤ high then 1 else 0

theorem part_of_wide (wide : b.lower < b.upper) :
    b.part low high = max 0 (min high b.upper - max low b.lower) / (b.upper - b.lower) := if_pos wide

theorem part_of_narrow (narrow : ¬ b.lower < b.upper) :
    b.part low high = if low ≤ b.lower ∧ b.lower ≤ high then 1 else 0 := if_neg narrow

/-- A bucket counts by its part, and one that is missed counts nothing. -/
theorem overlap?_getD (ordered : b.lower ≤ b.upper) :
    (b.overlap? low high).getD 0 = b.count * b.part low high := by
  simp only [overlap?, lt_real, le_real, larger_real, smaller_real, zero_real]
  by_cases wide : b.lower < b.upper
  · rw [part_of_wide wide, if_neg (not_le.mpr (sub_pos.mpr wide))]
    split
    next missed => rw [max_eq_left (sub_neg.mpr missed).le, zero_div, mul_zero, Option.getD_none]
    next met => rw [max_eq_right (sub_nonneg.mpr (not_lt.mp met)), Option.getD_some, mul_div_assoc]
  · have narrow : b.upper = b.lower := le_antisymm (not_lt.mp wide) ordered
    have inside : min high b.lower < max low b.lower ↔ ¬ (low ≤ b.lower ∧ b.lower ≤ high) := by
      rw [lt_max_iff, min_lt_iff, min_lt_iff]
      grind
    rw [part_of_narrow wide, narrow, sub_self, if_pos le_rfl]
    simp only [inside]
    by_cases met : low ≤ b.lower ∧ b.lower ≤ high
    · rw [if_neg (not_not.mpr met), if_pos met, Option.getD_some, mul_one]
    · rw [if_pos met, if_neg met, Option.getD_none, mul_zero]

theorem part_unit (b : Bucket ℝ) (low high : ℝ) : 0 ≤ b.part low high ∧ b.part low high ≤ 1 := by
  rw [part]
  split
  next wide =>
    have width := sub_pos.mpr wide
    refine ⟨div_nonneg (le_max_left 0 _) width.le, (div_le_one width).mpr (max_le width.le ?_)⟩
    exact sub_le_sub (min_le_right high b.upper) (le_max_right low b.lower)
  next => split <;> norm_num

theorem part_mono (lower : low' ≤ low) (higher : high ≤ high') : b.part low high ≤ b.part low' high' := by
  by_cases wide : b.lower < b.upper
  · rw [part_of_wide wide, part_of_wide wide]
    apply div_le_div_of_nonneg_right _ (sub_pos.mpr wide).le
    exact max_le_max_left 0 (sub_le_sub (min_le_min_right b.upper higher) (max_le_max_right b.lower lower))
  · rw [part_of_narrow wide, part_of_narrow wide]
    split
    next met => rw [if_pos ⟨lower.trans met.1, met.2.trans higher⟩]
    next => split <;> norm_num

theorem part_of_covered (ordered : b.lower ≤ b.upper) (covered : b.values ⊆ Set.Icc low high) :
    b.part low high = 1 := by
  have first : low ≤ b.lower := (covered (Set.left_mem_Icc.mpr ordered)).1
  have last : b.upper ≤ high := (covered (Set.right_mem_Icc.mpr ordered)).2
  rw [part]
  split
  next wide =>
    have width := sub_pos.mpr wide
    rw [min_eq_right last, max_eq_right first, max_eq_right width.le, div_self width.ne']
  next => exact if_pos ⟨first, ordered.trans last⟩

theorem part_of_missed (ordered : b.lower ≤ b.upper) (missed : Disjoint b.values (Set.Icc low high)) :
    b.part low high = 0 := by
  have apart (x : ℝ) (inside : x ∈ b.values) : ¬ (low ≤ x ∧ x ≤ high) := Set.disjoint_left.mp missed inside
  rw [part]
  split
  next wide =>
    -- Otherwise the left end of what they have in common would be in both.
    have common : min high b.upper ≤ max low b.lower := by
      by_contra meet
      obtain ⟨within, below⟩ := lt_min_iff.mp (not_le.mp meet)
      exact apart (max low b.lower) ⟨le_max_right _ _, below.le⟩ ⟨le_max_left _ _, within.le⟩
    rw [max_eq_left (sub_nonpos.mpr common), zero_div]
  next => exact if_neg (apart b.lower (Set.left_mem_Icc.mpr ordered))

/-- The point of a bucket next to a place. -/
noncomputable def nearest (b : Bucket ℝ) (place : ℝ) : ℝ := max b.lower (min b.upper place)

/-- What an interval and a bucket have in common reaches from the one end to the other. -/
theorem common_eq_sub (wide : b.lower < b.upper) (ordered : low ≤ high) :
    max 0 (min high b.upper - max low b.lower) = b.nearest high - b.nearest low := by
  simp only [nearest]
  grind

/-- Two intervals that meet share the atom between them. -/
theorem part_split (ordered : b.lower ≤ b.upper) (first : low ≤ mid) (second : mid ≤ high) :
    b.part low mid + b.part mid high =
      b.part low high + if b.lower = mid ∧ b.upper = mid then 1 else 0 := by
  by_cases wide : b.lower < b.upper
  · have atomless : ¬ (b.lower = mid ∧ b.upper = mid) := fun same => wide.ne (same.1.trans same.2.symm)
    rw [part_of_wide wide, part_of_wide wide, part_of_wide wide, common_eq_sub wide first,
      common_eq_sub wide second, common_eq_sub wide (first.trans second), if_neg atomless]
    ring
  · have narrow : b.upper = b.lower := le_antisymm (not_lt.mp wide) ordered
    rw [part_of_narrow wide, part_of_narrow wide, part_of_narrow wide, narrow]
    grind

end Bucket

namespace Histogram

variable {h : Histogram ℝ} {f g : Bucket ℝ → ℝ}

/-- The rows that a part of every bucket comes to. -/
noncomputable def weigh (h : Histogram ℝ) (part : Bucket ℝ → ℝ) : ℝ :=
  (h.buckets.map fun b => b.count * part b).sum

/-- The rows of the buckets that hold one value alone. -/
noncomputable def atom (h : Histogram ℝ) (place : ℝ) : ℝ :=
  h.weigh fun b => if b.lower = place ∧ b.upper = place then 1 else 0

noncomputable def share (h : Histogram ℝ) (low high : ℝ) : ℝ := h.weigh (·.part low high) / h.total

/-- Buckets with their bounds in order and with rows in them, not all of them empty. -/
structure Counted (h : Histogram ℝ) : Prop where
  ordered : ∀ b ∈ h.buckets, b.lower ≤ b.upper
  counts : ∀ b ∈ h.buckets, 0 ≤ b.count
  filled : 0 < h.total

/-! ### Sums over the buckets -/

private theorem foldl_add (rows : Bucket ℝ → ℝ) (buckets : List (Bucket ℝ)) (start : ℝ) :
    buckets.foldl (fun sum b => sum + rows b) start = start + (buckets.map rows).sum := by
  induction buckets generalizing start with
  | nil => exact (add_zero start).symm
  | cons b buckets ih => rw [List.foldl_cons, ih, List.map_cons, List.sum_cons, add_assoc]

theorem total_eq (h : Histogram ℝ) : h.total = (h.buckets.map Bucket.count).sum :=
  (foldl_add Bucket.count h.buckets 0).trans (zero_add _)

theorem covered_eq (ordered : ∀ b ∈ h.buckets, b.lower ≤ b.upper) (low high : ℝ) :
    h.covered low high = h.weigh (·.part low high) := by
  have rows : h.covered low high = h.buckets.foldl (fun sum b => sum + (b.overlap? low high).getD 0) 0 := by
    rw [covered]
    congr 1
    funext sum b
    cases b.overlap? low high with
    | none => exact (add_zero sum).symm
    | some rows => rfl
  have parts : h.buckets.map (fun b => (b.overlap? low high).getD 0) =
      h.buckets.map fun b => b.count * b.part low high :=
    List.map_congr_left fun b member => Bucket.overlap?_getD (ordered b member)
  rw [rows, foldl_add, zero_add, parts, weigh]

theorem weigh_congr (same : ∀ b ∈ h.buckets, f b = g b) : h.weigh f = h.weigh g :=
  congrArg List.sum (List.map_congr_left fun b member => congrArg (b.count * ·) (same b member))

theorem weigh_mono (counts : ∀ b ∈ h.buckets, 0 ≤ b.count) (less : ∀ b ∈ h.buckets, f b ≤ g b) :
    h.weigh f ≤ h.weigh g :=
  List.sum_le_sum fun b member => mul_le_mul_of_nonneg_left (less b member) (counts b member)

theorem weigh_add (h : Histogram ℝ) (f g : Bucket ℝ → ℝ) :
    h.weigh (fun b => f b + g b) = h.weigh f + h.weigh g := by
  simp only [weigh, mul_add, List.sum_map_add]

@[simp] theorem weigh_zero (h : Histogram ℝ) : h.weigh (fun _ => 0) = 0 := by simp [weigh]

@[simp] theorem weigh_one (h : Histogram ℝ) : h.weigh (fun _ => 1) = h.total := by simp [weigh, total_eq]

/-! ### Single buckets -/

/-- No bucket has more rows than all of them together. -/
theorem count_le_total (counts : ∀ b ∈ h.buckets, 0 ≤ b.count) {b : Bucket ℝ} (member : b ∈ h.buckets) :
    b.count ≤ h.total := by
  rw [total_eq]
  apply List.single_le_sum
  · intro rows found
    obtain ⟨b, member, rfl⟩ := List.mem_map.mp found
    exact counts b member
  · exact List.mem_map_of_mem member

theorem valueFraction?_unit (counts : ∀ b ∈ h.buckets, 0 ≤ b.count) {value part : ℝ}
    (found : h.valueFraction? value = some part) : 0 ≤ part ∧ part ≤ 1 := by
  simp only [valueFraction?, le_real, zero_real, larger_real, one_real] at found
  split at found
  next => cases found
  next filled =>
    obtain ⟨b, holds, rfl⟩ := Option.map_eq_some_iff.mp found
    have member := List.mem_of_find?_eq_some holds
    have positive := not_le.mp filled
    have few : b.count / h.total ≤ 1 := (div_le_one positive).mpr (count_le_total counts member)
    have some : 0 ≤ b.count / h.total := div_nonneg (counts b member) positive.le
    have spread : 1 ≤ max b.distinct 1 := le_max_right _ _
    exact ⟨div_nonneg some (zero_le_one.trans spread),
      (div_le_one (one_pos.trans_le spread)).mpr (few.trans spread)⟩

/-! ### Shares of intervals -/

/-- How the shares of intervals belong together. -/
structure Spreads (h : Histogram ℝ) (share : ℝ → ℝ → ℝ) : Prop where
  unit : ∀ low high, 0 ≤ share low high ∧ share low high ≤ 1
  mono : ∀ low low' high high', low' ≤ low → high ≤ high' → share low high ≤ share low' high'
  whole : ∀ low high, (∀ b ∈ h.buckets, b.values ⊆ Set.Icc low high) → share low high = 1
  empty : ∀ low high, (∀ b ∈ h.buckets, Disjoint b.values (Set.Icc low high)) → share low high = 0
  split : ∀ low mid high, low ≤ mid → mid ≤ high →
    share low mid + share mid high = share low high + h.atom mid / h.total

theorem Counted.spreads (counted : h.Counted) : h.Spreads h.share where
  unit low high := by
    have none := weigh_mono counted.counts fun b _ => (b.part_unit low high).1
    have all := weigh_mono counted.counts fun b _ => (b.part_unit low high).2
    rw [weigh_zero] at none
    rw [weigh_one] at all
    exact ⟨div_nonneg none counted.filled.le, (div_le_one counted.filled).mpr all⟩
  mono low low' high high' lower higher :=
    div_le_div_of_nonneg_right (weigh_mono counted.counts fun b _ => Bucket.part_mono lower higher) counted.filled.le
  whole low high covered := by
    have all := weigh_congr fun b member => Bucket.part_of_covered (counted.ordered b member) (covered b member)
    rw [share, all, weigh_one, div_self counted.filled.ne']
  empty low high missed := by
    have none := weigh_congr fun b member => Bucket.part_of_missed (counted.ordered b member) (missed b member)
    rw [share, none, weigh_zero, zero_div]
  split low mid high first second := by
    have sums := weigh_congr fun b member => Bucket.part_split (counted.ordered b member) first second
    rw [weigh_add, weigh_add] at sums
    rw [share, share, share, ← add_div, sums, add_div, atom]

theorem Counted.rangeFraction?_eq (counted : h.Counted) (low high : ℝ) :
    h.rangeFraction? low high = some (h.share low high) := by
  obtain ⟨nonneg, small⟩ := counted.spreads.unit low high
  have filled : le h.total zero = false := by
    rw [← Bool.not_eq_true, le_real]
    exact not_le.mpr counted.filled
  rw [rangeFraction?, filled, covered_eq counted.ordered]
  exact congrArg some (clamp_of_unit nonneg small)

/-- The fractions that a histogram tells are the shares of a distribution. -/
theorem rangeFraction?_spreads (counted : h.Counted) :
    ∃ share, (∀ low high, h.rangeFraction? low high = some (share low high)) ∧ h.Spreads share :=
  ⟨h.share, counted.rangeFraction?_eq, counted.spreads⟩

/-- Buckets that touch, one without width where they do, and one across them. -/
def touching : Histogram ℝ where
  buckets := [⟨0, 20, 900, 40⟩, ⟨20, 20, 60, 1⟩, ⟨20, 200, 80, 90⟩, ⟨5, 70, 30, 6⟩]

/-- The rows at 20 are counted on both sides of it. -/
theorem rangeFraction?_spreads_touching :
    touching.Counted ∧
      ∃ share, (∀ low high, touching.rangeFraction? low high = some (share low high)) ∧
        touching.Spreads share ∧ share 0 20 + share 20 200 = 1 + 60 / 1070 := by
  have total : touching.total = 1070 := by
    rw [total_eq]
    norm_num [touching]
  have counted : touching.Counted := by
    refine ⟨?_, ?_, total ▸ by norm_num⟩
    · norm_num [touching]
    · norm_num [touching]
  obtain ⟨share, fractions, spreads⟩ := rangeFraction?_spreads counted
  have whole : share 0 200 = 1 := by
    refine spreads.whole 0 200 fun b member => Set.Icc_subset_Icc ?_ ?_
    · revert b
      norm_num [touching]
    · revert b
      norm_num [touching]
  have atom : touching.atom 20 = 60 := by norm_num [atom, weigh, touching]
  have split := spreads.split 0 20 200 (by norm_num) (by norm_num)
  rw [whole, atom, total] at split
  exact ⟨counted, share, fractions, spreads, split⟩

end Histogram
end Selectivity
