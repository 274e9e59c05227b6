import Selectivity.Cost.Lookup
import Selectivity.Proofs.ExactQuantity
import Mathlib.Algebra.Order.Archimedean.Real.Basic
import Mathlib.Tactic.Linarith

/-! What batched lookups cost in exact arithmetic. One formula covers every lookup that the OLAP
engine does not make: whole batches form groups, and the leftover rows are one more call, unless
the last of several groups has room for them. More batches in flight never raise the price, which
stays between that of full groups and that of one call after the other. -/

namespace Selectivity.LookupModel

open Quantity

variable (m : LookupModel ℝ)

/-- The rows of a batch. -/
def batch : ℕ := Nat.max m.batchRows 1

/-- The batches in flight at once. -/
def lanes : ℕ := Nat.max m.concurrentBatches 1

noncomputable def wholeBatches (rows : ℝ) : ℕ := ⌊rows / m.batch⌋₊

noncomputable def leftover (rows : ℝ) : ℝ := rows - m.wholeBatches rows * m.batch

/-- Batches in flight together make a group, and the groups follow one another. -/
noncomputable def groups (rows : ℝ) : ℕ := ⌈(m.wholeBatches rows : ℝ) / m.lanes⌉₊

/-- The price of one call, which is not made for no rows. -/
noncomputable def call (fixed rows : ℝ) : ℝ := if 0 < rows then rows * m.oltpRowCost + fixed else 0

/-- There is a single group, if any, or all groups are full. -/
def Spills (rows : ℝ) : Prop := m.wholeBatches rows ≤ m.lanes ∨ m.lanes ∣ m.wholeBatches rows

noncomputable instance (rows : ℝ) : Decidable (m.Spills rows) := inferInstanceAs (Decidable (_ ∨ _))

/-- The price of the leftover rows, which the last of several groups carries if it has room. -/
noncomputable def rest (fixed rows : ℝ) : ℝ := if m.Spills rows then m.call fixed (m.leftover rows) else 0

variable {m} {rows openLatency closeLatency fixed : ℝ}

theorem batch_pos : (0 : ℝ) < m.batch := Nat.cast_pos.mpr (Nat.le_max_right _ _)

theorem lanes_pos : 0 < m.lanes := Nat.le_max_right _ _

theorem groups_le_iff {k : ℕ} : m.groups rows ≤ k ↔ m.wholeBatches rows ≤ k * m.lanes := by
  rw [groups, Nat.ceil_le, div_le_iff₀ (Nat.cast_pos.mpr lanes_pos)]
  exact_mod_cast Iff.rfl

theorem groups_mul_lanes (full : m.lanes ∣ m.wholeBatches rows) : m.groups rows * m.lanes = m.wholeBatches rows := by
  obtain ⟨k, whole⟩ := full
  have few : m.groups rows ≤ k := groups_le_iff.mpr (by rw [whole, Nat.mul_comm])
  have enough : m.wholeBatches rows ≤ m.groups rows * m.lanes := groups_le_iff.mp le_rfl
  apply le_antisymm _ enough
  rw [whole, Nat.mul_comm m.lanes]
  exact Nat.mul_le_mul_right _ few

theorem call_batch : m.call fixed m.batch = m.batch * m.oltpRowCost + fixed := if_pos batch_pos

/-- The count of groups of a lookup that fills a batch, before it is rounded. -/
noncomputable def span (m : LookupModel ℝ) (rows : ℝ) : ℝ := max ((m.wholeBatches rows : ℝ) / m.lanes) 1

theorem one_le_groups (filled : 1 ≤ m.wholeBatches rows) : 1 ≤ m.groups rows := by
  by_contra none
  have empty : m.wholeBatches rows ≤ 0 * m.lanes := groups_le_iff.mp (by omega)
  omega

theorem ceil_span (filled : 1 ≤ m.wholeBatches rows) : (⌈m.span rows⌉ : ℝ) = m.groups rows := by
  have nonneg : 0 ≤ m.span rows := zero_le_one.trans (le_max_right _ _)
  rw [← natCast_ceil_eq_intCast_ceil nonneg, span, Nat.ceil_mono.map_max, Nat.ceil_one]
  exact_mod_cast max_eq_left (one_le_groups filled)

theorem whole_span : (⌊m.span rows⌋ : ℝ) = m.span rows ↔ m.Spills rows := by
  have positive : (0 : ℝ) < m.lanes := Nat.cast_pos.mpr lanes_pos
  constructor
  · intro whole
    by_cases single : m.wholeBatches rows ≤ m.lanes
    · exact .inl single
    · have several : (1 : ℝ) ≤ m.wholeBatches rows / m.lanes := by
        rw [one_le_div positive]
        exact_mod_cast (not_le.mp single).le
      rw [span, max_eq_left several, eq_div_iff positive.ne'] at whole
      have whole : ⌊(m.wholeBatches rows : ℝ) / m.lanes⌋ * (m.lanes : ℤ) = m.wholeBatches rows := by exact_mod_cast whole
      exact .inr (Int.natCast_dvd_natCast.mp ⟨_, whole.symm.trans (mul_comm _ _)⟩)
  · rintro (single | ⟨k, whole⟩)
    · have few : (m.wholeBatches rows : ℝ) / m.lanes ≤ 1 := by
        rw [div_le_one positive]
        exact_mod_cast single
      rw [span, max_eq_right few, Int.floor_one, Int.cast_one]
    · have count : m.span rows = (max k 1 : ℕ) := by
        rw [span, whole, Nat.cast_mul, mul_div_cancel_left₀ _ positive.ne', Nat.cast_max, Nat.cast_one]
      rw [count, Int.floor_natCast, Int.cast_natCast]

theorem serial_eq (filled : 1 ≤ m.wholeBatches rows) (fixed : ℝ) :
    m.serial rows m.batch (m.wholeBatches rows) fixed = m.groups rows * m.call fixed m.batch + m.rest fixed rows := by
  have charged : (if lt zero (rows - m.wholeBatches rows * m.batch) then
      (rows - m.wholeBatches rows * m.batch) * m.oltpRowCost + fixed else zero) = m.call fixed (m.leftover rows) := by
    simp only [lt_real, zero_real]
    rfl
  have formula : m.serial rows m.batch (m.wholeBatches rows) fixed =
      if whole (m.span rows) then m.span rows * m.call fixed m.batch + m.call fixed (m.leftover rows)
      else (⌈m.span rows⌉ : ℝ) * m.call fixed m.batch := by
    rw [← charged, call_batch, span]
    simp only [serial, larger_real, one_real, ofNat_real, ceil_real]
    rfl
  rw [formula, rest]
  simp only [whole_real, whole_span]
  split
  next spills =>
    have rounded : (⌈m.span rows⌉ : ℝ) = m.span rows := by
      rw [← whole_span.mpr spills, Int.ceil_intCast]
    rw [← rounded, ceil_span filled]
  next => rw [ceil_span filled, add_zero]

theorem wholeBatches_of_nonpos (none : rows ≤ 0) : m.wholeBatches rows = 0 :=
  Nat.floor_of_nonpos (div_nonpos_of_nonpos_of_nonneg none batch_pos.le)

theorem groups_of_empty (empty : m.wholeBatches rows = 0) : m.groups rows = 0 :=
  Nat.le_zero.mp (groups_le_iff.mpr (by omega))

theorem rest_of_empty (empty : m.wholeBatches rows = 0) : m.rest fixed rows = m.call fixed rows := by
  rw [rest, if_pos (.inl (empty ▸ Nat.zero_le _)), leftover, empty, Nat.cast_zero, zero_mul, sub_zero]

theorem priced_of_empty (empty : m.wholeBatches rows = 0) :
    m.groups rows * m.call fixed m.batch + m.rest fixed rows = m.call fixed rows := by
  rw [groups_of_empty empty, rest_of_empty empty, Nat.cast_zero, zero_mul, zero_add]

/-- A single row is no exception, as it is a batch only if batches have one row. -/
theorem single_eq : m.groups 1 * m.call fixed m.batch + m.rest fixed 1 = m.call fixed 1 := by
  rcases Nat.eq_zero_or_pos (m.wholeBatches 1) with empty | filled
  · exact priced_of_empty empty
  · have one : m.batch = 1 := by
      have small : (m.batch : ℝ) ≤ 1 := (one_le_div batch_pos).mp (Nat.floor_pos.mp filled)
      exact le_antisymm (by exact_mod_cast small) (Nat.le_max_right _ _)
    have whole : m.wholeBatches 1 = 1 := by
      rw [wholeBatches, one, Nat.cast_one, div_one, Nat.floor_one]
    have group : m.groups 1 = 1 := by
      apply le_antisymm (groups_le_iff.mpr _) (one_le_groups filled)
      rw [whole, Nat.one_mul]
      exact lanes_pos
    have nothing : m.leftover 1 = 0 := by rw [leftover, whole, one, Nat.cast_one, one_mul, sub_self]
    have carried : m.rest fixed 1 = 0 := by rw [rest, nothing, call, if_neg (lt_irrefl _), ite_self]
    rw [carried, group, one, Nat.cast_one, one_mul, add_zero]

/-- The price of a lookup that is no full batch is that of its rows, however it is reached. -/
theorem cost_eq (m : LookupModel ℝ) (rows openLatency closeLatency : ℝ) :
    m.cost rows openLatency closeLatency false =
      m.groups rows * m.call (openLatency + closeLatency) m.batch + m.rest (openLatency + closeLatency) rows := by
  have formula : m.cost rows openLatency closeLatency false =
      if rows ≤ 0 then 0
      else if rows = 1 then rows * m.oltpRowCost + (openLatency + closeLatency) + 0
      else if (⌊rows / m.batch⌋ : ℝ) = 0 then rows * m.oltpRowCost + (openLatency + closeLatency)
      else m.serial rows m.batch (⌊rows / m.batch⌋ : ℝ) (openLatency + closeLatency) := by
    simp only [cost, le_real, zero_real, one_real, same_real, ofNat_real, floor_real, Bool.false_eq_true, if_false]
    rfl
  rw [formula]
  split
  next none => rw [priced_of_empty (wholeBatches_of_nonpos none), call, if_neg (not_lt.mpr none)]
  next some =>
    have some := not_le.mp some
    have counted : (⌊rows / m.batch⌋ : ℝ) = m.wholeBatches rows :=
      (natCast_floor_eq_intCast_floor (div_nonneg some.le batch_pos.le)).symm
    have alone : m.call (openLatency + closeLatency) rows = rows * m.oltpRowCost + (openLatency + closeLatency) :=
      if_pos some
    rw [counted]
    split
    next one => rw [add_zero, ← alone, one, single_eq]
    next =>
      split
      next none => rw [priced_of_empty (Nat.cast_eq_zero.mp none), alone]
      next filled => exact serial_eq (Nat.one_le_iff_ne_zero.mpr fun none => filled (Nat.cast_eq_zero.mpr none)) _

/-! ### Bounds -/

variable {rows' : ℝ}

theorem leftover_nonneg (some : 0 ≤ rows) : 0 ≤ m.leftover rows :=
  sub_nonneg.mpr ((le_div_iff₀ batch_pos).mp (Nat.floor_le (div_nonneg some batch_pos.le)))

theorem leftover_lt (rows : ℝ) : m.leftover rows < m.batch := by
  have next := (div_lt_iff₀ batch_pos).mp (Nat.lt_floor_add_one (rows / m.batch))
  rw [add_one_mul] at next
  exact sub_lt_iff_lt_add'.mpr next

theorem wholeBatches_mono (more : rows ≤ rows') : m.wholeBatches rows ≤ m.wholeBatches rows' :=
  Nat.floor_mono (div_le_div_of_nonneg_right more batch_pos.le)

theorem wholeBatches_eq {n : ℕ} (enough : n * m.batch ≤ rows) (few : rows < (n + 1) * m.batch) :
    m.wholeBatches rows = n := by
  have nonneg : 0 ≤ rows / m.batch :=
    div_nonneg ((mul_nonneg n.cast_nonneg batch_pos.le).trans enough) batch_pos.le
  rw [wholeBatches, Nat.floor_eq_iff nonneg, le_div_iff₀ batch_pos, div_lt_iff₀ batch_pos]
  exact ⟨enough, few⟩

theorem groups_mono (more : rows ≤ rows') : m.groups rows ≤ m.groups rows' :=
  groups_le_iff.mpr ((wholeBatches_mono more).trans (groups_le_iff.mp le_rfl))

section Prices

variable (price : 0 ≤ m.oltpRowCost) (latency : 0 ≤ fixed)

include price latency

theorem call_nonneg (rows : ℝ) : 0 ≤ m.call fixed rows := by
  rw [call]
  split
  next some => exact add_nonneg (mul_nonneg some.le price) latency
  next => exact le_rfl

theorem call_mono (more : rows ≤ rows') : m.call fixed rows ≤ m.call fixed rows' := by
  by_cases some : 0 < rows
  · rw [call, call, if_pos some, if_pos (some.trans_le more)]
    have dearer := mul_le_mul_of_nonneg_right more price
    linarith
  · rw [call, if_neg some]
    exact call_nonneg price latency rows'

theorem rest_nonneg (rows : ℝ) : 0 ≤ m.rest fixed rows := by
  rw [rest]
  split
  next => exact call_nonneg price latency _
  next => exact le_rfl

theorem rest_le_call (rows : ℝ) : m.rest fixed rows ≤ m.call fixed (m.leftover rows) := by
  rw [rest]
  split
  next => exact le_rfl
  next => exact call_nonneg price latency _

theorem rest_le (rows : ℝ) : m.rest fixed rows ≤ m.call fixed m.batch :=
  (rest_le_call price latency rows).trans (call_mono price latency (leftover_lt rows).le)

/-- A group more costs at least as much as any leftover rows. -/
theorem priced_le_of_lt {n k : ℕ} (fewer : n < k) (rows : ℝ) {extra : ℝ} (nonneg : 0 ≤ extra) :
    n * m.call fixed m.batch + m.rest fixed rows ≤ k * m.call fixed m.batch + extra := by
  have room : ((n : ℝ) + 1) * m.call fixed m.batch ≤ k * m.call fixed m.batch :=
    mul_le_mul_of_nonneg_right (by exact_mod_cast fewer) (call_nonneg price latency _)
  have carried := rest_le (m := m) price latency rows
  linarith

end Prices

/-! ### More batches in flight -/

/-- The same model with another number of batches in flight. -/
def withLanes (m : LookupModel ℝ) (count : ℕ) : LookupModel ℝ := { m with concurrentBatches := count }

section Lanes

variable {count : ℕ} (more : m.concurrentBatches ≤ count)

include more

theorem lanes_le_withLanes : m.lanes ≤ (m.withLanes count).lanes := max_le_max_right 1 more

theorem groups_withLanes_le (rows : ℝ) : (m.withLanes count).groups rows ≤ m.groups rows := by
  have enough : m.wholeBatches rows ≤ m.groups rows * m.lanes := groups_le_iff.mp le_rfl
  exact groups_le_iff.mpr (enough.trans (Nat.mul_le_mul_left _ (lanes_le_withLanes more)))

/-- Where as many groups are left, leftover rows that were carried are still carried. -/
theorem spills_of_withLanes (same : (m.withLanes count).groups rows = m.groups rows)
    (spills : (m.withLanes count).Spills rows) : m.Spills rows := by
  by_contra carried
  obtain ⟨several, uneven⟩ := not_or.mp carried
  have groups : 1 < m.groups rows := by
    by_contra single
    have one := groups_le_iff.mp (not_lt.mp single)
    omega
  rcases spills with single | full
  · have one : (m.withLanes count).groups rows ≤ 1 := groups_le_iff.mpr (by rwa [Nat.one_mul])
    omega
  · have filled : (m.withLanes count).groups rows * (m.withLanes count).lanes = m.wholeBatches rows := groups_mul_lanes full
    have enough : m.wholeBatches rows ≤ m.groups rows * m.lanes := groups_le_iff.mp le_rfl
    rw [same] at filled
    have equal : (m.withLanes count).lanes = m.lanes := by
      apply le_antisymm _ (lanes_le_withLanes more)
      exact Nat.le_of_mul_le_mul_left (filled.trans_le enough) (by omega)
    exact uneven ⟨m.groups rows, by rw [← filled, equal, Nat.mul_comm]⟩

theorem cost_withLanes_le (price : 0 ≤ m.oltpRowCost) (latency : 0 ≤ openLatency + closeLatency) (rows : ℝ) :
    (m.withLanes count).cost rows openLatency closeLatency false ≤ m.cost rows openLatency closeLatency false := by
  have nonneg := rest_nonneg price latency rows
  rw [cost_eq, cost_eq]
  rcases (groups_withLanes_le more rows).lt_or_eq with fewer | same
  · exact priced_le_of_lt (m := m.withLanes count) price latency fewer rows nonneg
  · rw [same]
    apply add_le_add_right
    rw [rest]
    split
    next spills =>
      have charged : m.rest (openLatency + closeLatency) rows = _ := if_pos (spills_of_withLanes more same spills)
      exact charged.ge
    next => exact nonneg

end Lanes

/-! ### Between the serial and the ideal price -/

/-- Every batch is a call, and so are the rows left over. -/
theorem calls_eq (some : 0 ≤ rows) :
    (⌈rows / m.batch⌉ : ℝ) = m.wholeBatches rows + if 0 < m.leftover rows then 1 else 0 := by
  have split : rows / m.batch = m.wholeBatches rows + m.leftover rows / m.batch := by
    rw [leftover, sub_div, mul_div_cancel_right₀ _ batch_pos.ne']
    ring
  have small : m.leftover rows / m.batch ≤ 1 := ((div_lt_one batch_pos).mpr (leftover_lt rows)).le
  have ceil : ⌈rows / m.batch⌉ = (m.wholeBatches rows : ℤ) + if 0 < m.leftover rows then 1 else 0 := by
    rw [split, Int.ceil_eq_iff]
    split
    next extra =>
      have positive : 0 < m.leftover rows / m.batch := div_pos extra batch_pos
      push_cast
      constructor <;> linarith
    next none =>
      have zero : m.leftover rows = 0 := le_antisymm (not_lt.mp none) (leftover_nonneg some)
      rw [zero, zero_div]
      push_cast
      constructor <;> linarith
  rw [ceil]
  push_cast
  rfl

theorem cost_of_single_lane (single : m.lanes = 1) (some : 0 ≤ rows) :
    m.cost rows openLatency closeLatency false =
      rows * m.oltpRowCost + ⌈rows / m.batch⌉ * (openLatency + closeLatency) := by
  have groups : m.groups rows = m.wholeBatches rows := by
    have filled : m.groups rows * m.lanes = m.wholeBatches rows := groups_mul_lanes (single ▸ Nat.one_dvd _)
    rwa [single, Nat.mul_one] at filled
  have spilled : m.rest (openLatency + closeLatency) rows = m.call (openLatency + closeLatency) (m.leftover rows) :=
    if_pos (.inr (single ▸ Nat.one_dvd _))
  have paid : rows * m.oltpRowCost =
      m.wholeBatches rows * (m.batch * m.oltpRowCost) + m.leftover rows * m.oltpRowCost := by
    rw [leftover]
    ring
  have charged : m.call (openLatency + closeLatency) (m.leftover rows) =
      m.leftover rows * m.oltpRowCost + (if 0 < m.leftover rows then 1 else 0) * (openLatency + closeLatency) := by
    rw [call]
    split
    next => rw [one_mul]
    next none =>
      have zero : m.leftover rows = 0 := le_antisymm (not_lt.mp none) (leftover_nonneg some)
      rw [zero, zero_mul, zero_mul, add_zero]
  rw [cost_eq, groups, spilled, charged, calls_eq some, call_batch, paid]
  ring

theorem ideal_le_cost (price : 0 ≤ m.oltpRowCost) (latency : 0 ≤ openLatency + closeLatency)
    (filled : 1 ≤ m.wholeBatches rows) :
    max ((m.wholeBatches rows : ℝ) / m.lanes) 1 * (m.batch * m.oltpRowCost + (openLatency + closeLatency)) ≤
      m.cost rows openLatency closeLatency false := by
  have enough : m.span rows ≤ m.groups rows := ceil_span filled ▸ Int.le_ceil _
  have nonneg := call_nonneg (m := m) price latency m.batch
  rw [cost_eq, ← call_batch]
  exact (mul_le_mul_of_nonneg_right enough nonneg).trans
    (le_add_of_nonneg_right (rest_nonneg price latency rows))

/-- With more batches in flight a lookup costs no more. It costs what its calls cost one after the
other if they are made so, at most that if not, and at least as much as groups of full batches.
A single row is no exception to either bound. -/
theorem cost_bounds (m : LookupModel ℝ) (openLatency closeLatency rows : ℝ) (batches : 1 ≤ m.batchRows)
    (lanes : 1 ≤ m.concurrentBatches) (price : 0 ≤ m.oltpRowCost) (latency : 0 ≤ openLatency + closeLatency) :
    (∀ count, m.concurrentBatches ≤ count →
      (m.withLanes count).cost rows openLatency closeLatency false ≤ m.cost rows openLatency closeLatency false) ∧
    (0 ≤ rows →
      m.cost rows openLatency closeLatency false ≤
        rows * m.oltpRowCost + ⌈rows / m.batchRows⌉ * (openLatency + closeLatency) ∧
      (m.concurrentBatches = 1 →
        m.cost rows openLatency closeLatency false =
          rows * m.oltpRowCost + ⌈rows / m.batchRows⌉ * (openLatency + closeLatency))) ∧
    (m.batchRows ≤ rows →
      max (⌊rows / m.batchRows⌋ / m.concurrentBatches : ℝ) 1 *
          (m.batchRows * m.oltpRowCost + (openLatency + closeLatency)) ≤
        m.cost rows openLatency closeLatency false) := by
  have batch : m.batch = m.batchRows := Nat.max_eq_left batches
  have flying : m.lanes = m.concurrentBatches := Nat.max_eq_left lanes
  refine ⟨fun count more => cost_withLanes_le more price latency rows, fun some => ⟨?_, fun one => ?_⟩, fun filled => ?_⟩
  · have serial : (m.withLanes 1).cost rows openLatency closeLatency false =
        rows * m.oltpRowCost + ⌈rows / m.batch⌉ * (openLatency + closeLatency) := cost_of_single_lane rfl some
    rw [← batch, ← serial]
    exact cost_withLanes_le (m := m.withLanes 1) lanes price latency rows
  · rw [← batch]
    exact cost_of_single_lane (flying.trans one) some
  · have positive : (0 : ℝ) < m.batchRows := by rw [← batch]; exact batch_pos
    have nonneg : 0 ≤ rows / m.batchRows := div_nonneg (positive.le.trans filled) positive.le
    have counted : (⌊rows / m.batchRows⌋ : ℝ) = m.wholeBatches rows := by
      rw [wholeBatches, batch, natCast_floor_eq_intCast_floor nonneg]
    have started : 1 ≤ m.wholeBatches rows := by
      rw [wholeBatches, batch]
      exact Nat.floor_pos.mpr ((one_le_div positive).mpr filled)
    rw [counted, ← flying, ← batch]
    exact ideal_le_cost price latency started

/-- Batches of a hundred rows, four of them in flight. -/
noncomputable def fourLanes : LookupModel ℝ :=
  .ofSettings { Settings.exact with batchRows := 100, concurrentBatches := 4 }

/-- Two batches and a half cost at least as much as one group, and at most as much as three calls. -/
theorem cost_bounds_fourLanes :
    (fourLanes.withLanes 8).cost 250 10 5 false ≤ fourLanes.cost 250 10 5 false ∧
      fourLanes.cost 250 10 5 false ≤ 250 * 125 + 3 * 15 ∧ 100 * 125 + 15 ≤ fourLanes.cost 250 10 5 false := by
  obtain ⟨saved, serial, ideal⟩ := cost_bounds fourLanes 10 5 250 (by decide) (by decide)
    (by norm_num [fourLanes, ofSettings, Settings.exact]) (by norm_num)
  refine ⟨saved 8 (by decide), ?_, ?_⟩
  · have calls : ⌈(250 : ℝ) / fourLanes.batchRows⌉ = 3 := by
      rw [Int.ceil_eq_iff]
      norm_num [fourLanes, ofSettings]
    refine (serial (by norm_num)).1.trans (le_of_eq ?_)
    rw [calls]
    norm_num [fourLanes, ofSettings, Settings.exact]
  · have groups : (⌊(250 : ℝ) / fourLanes.batchRows⌋ / fourLanes.concurrentBatches : ℝ) ≤ 1 := by
      have whole : ⌊(250 : ℝ) / fourLanes.batchRows⌋ = 2 := by
        rw [Int.floor_eq_iff]
        norm_num [fourLanes, ofSettings]
      rw [whole]
      norm_num [fourLanes, ofSettings]
    refine le_trans (le_of_eq ?_) (ideal ?_)
    · rw [max_eq_right groups]
      norm_num [fourLanes, ofSettings, Settings.exact]
    · norm_num [fourLanes, ofSettings]

end Selectivity.LookupModel
