import Selectivity.Proofs.BatchedLookups

/-! How the price of a lookup grows with its rows. In exact arithmetic more rows cost at least as
much, with one exception: in the first group the rows beyond the whole batches are charged as a
call of their own, and that call disappears when they fill a batch that is in flight anyway. -/

namespace Selectivity.LookupModel

open Quantity

variable {m : LookupModel ℝ} {rows rows' openLatency closeLatency : ℝ}

/-- A lookup that needs one group, whose leftover rows are charged on their own. -/
theorem cost_of_single_group (filled : 1 ≤ m.wholeBatches rows) (single : m.wholeBatches rows ≤ m.lanes) :
    m.cost rows openLatency closeLatency false =
      m.call (openLatency + closeLatency) m.batch + m.call (openLatency + closeLatency) (m.leftover rows) := by
  have group : m.groups rows = 1 :=
    le_antisymm (groups_le_iff.mpr (by rwa [Nat.one_mul])) (one_le_groups filled)
  have spilled : m.rest (openLatency + closeLatency) rows = _ := if_pos (.inl single)
  rw [cost_eq, group, spilled, Nat.cast_one, one_mul]

/-- Two lookups of a single group each. The second one fills more of the batches in flight, and
its leftover rows make a cheaper call. -/
structure Drops (m : LookupModel ℝ) (fixed rows rows' : ℝ) : Prop where
  started : 1 ≤ m.wholeBatches rows
  single : m.wholeBatches rows' ≤ m.lanes
  cheaper : m.call fixed (m.leftover rows') < m.call fixed (m.leftover rows)

section Rows

variable (price : 0 ≤ m.oltpRowCost) (latency : 0 ≤ openLatency + closeLatency) (more : rows ≤ rows')

include price latency more

theorem rest_mono (same : m.wholeBatches rows' = m.wholeBatches rows) :
    m.rest (openLatency + closeLatency) rows ≤ m.rest (openLatency + closeLatency) rows' := by
  by_cases spills : m.Spills rows
  · have spills' : m.Spills rows' := by rwa [Spills, same]
    have leftover : m.leftover rows ≤ m.leftover rows' := by
      rw [leftover, leftover, same]
      exact sub_le_sub_right more _
    rw [rest, rest, if_pos spills, if_pos spills']
    exact call_mono price latency leftover
  · rw [rest, if_neg spills]
    exact rest_nonneg price latency rows'

/-- Where no group is added, the leftover rows decide. -/
theorem rest_le_of_groups (same : m.groups rows = m.groups rows')
    (keeps : ¬ m.Drops (openLatency + closeLatency) rows rows') :
    m.rest (openLatency + closeLatency) rows ≤ m.rest (openLatency + closeLatency) rows' := by
  have grown := wholeBatches_mono (m := m) more
  have filled : m.wholeBatches rows' ≤ m.groups rows * m.lanes := groups_le_iff.mp same.ge
  by_cases spills : m.Spills rows
  · rcases spills with single | full
    · have one : m.groups rows ≤ 1 := groups_le_iff.mpr (by rwa [Nat.one_mul])
      rcases Nat.eq_zero_or_pos (m.wholeBatches rows) with empty | started
      · rw [groups_of_empty empty, Nat.zero_mul] at filled
        exact rest_mono price latency more (by omega)
      · have single' : m.wholeBatches rows' ≤ m.lanes := by
          rw [same, groups_le_iff, Nat.one_mul] at one
          exact one
        have spilled : m.rest (openLatency + closeLatency) rows = _ := if_pos (.inl single)
        have spilled' : m.rest (openLatency + closeLatency) rows' = _ := if_pos (.inl single')
        rw [spilled, spilled']
        exact not_lt.mp fun cheaper => keeps ⟨started, single', cheaper⟩
    · rw [groups_mul_lanes full] at filled
      exact rest_mono price latency more (le_antisymm filled grown)
  · have carried : m.rest (openLatency + closeLatency) rows = 0 := if_neg spills
    rw [carried]
    exact rest_nonneg price latency rows'

theorem cost_lt_iff :
    m.cost rows' openLatency closeLatency false < m.cost rows openLatency closeLatency false ↔
      m.Drops (openLatency + closeLatency) rows rows' := by
  constructor
  · intro lower
    by_contra keeps
    apply lower.not_ge
    rw [cost_eq, cost_eq]
    rcases (groups_mono (m := m) more).lt_or_eq with fewer | same
    · exact priced_le_of_lt price latency fewer rows (rest_nonneg price latency rows')
    · rw [same]
      exact add_le_add_right (rest_le_of_groups price latency more same keeps) _
  · intro drops
    have grown := wholeBatches_mono (m := m) more
    rw [cost_of_single_group drops.started (grown.trans drops.single),
      cost_of_single_group (drops.started.trans grown) drops.single]
    exact add_lt_add_right drops.cheaper _

end Rows

theorem cost_olap (m : LookupModel ℝ) (rows openLatency closeLatency : ℝ) :
    m.cost rows openLatency closeLatency true =
      if rows ≤ 0 then 0 else rows * m.olapRowCost + (openLatency + closeLatency) + m.olapStartupCost := by
  simp only [cost, le_real, zero_real, if_true]

theorem cost_olap_mono (price : 0 ≤ m.olapRowCost) (startup : 0 ≤ m.olapStartupCost)
    (latency : 0 ≤ openLatency + closeLatency) (more : rows ≤ rows') :
    m.cost rows openLatency closeLatency true ≤ m.cost rows' openLatency closeLatency true := by
  have dearer := mul_le_mul_of_nonneg_right more price
  rw [cost_olap, cost_olap]
  split
  next =>
    split
    next => exact le_rfl
    next some =>
      have nonneg := mul_nonneg (not_le.mp some).le price
      linarith
  next some =>
    rw [if_neg (fun none => some (more.trans none))]
    linarith

/-- More rows never cost less, except that they may fill more of the batches of a single group
and leave a cheaper call over. -/
theorem cost_le_iff (m : LookupModel ℝ) (oltp : 0 ≤ m.oltpRowCost) (olap : 0 ≤ m.olapRowCost)
    (startup : 0 ≤ m.olapStartupCost) (opening : 0 ≤ openLatency) (closing : 0 ≤ closeLatency) (more : rows ≤ rows')
    (engine : Bool) :
    m.cost rows openLatency closeLatency engine ≤ m.cost rows' openLatency closeLatency engine ↔
      engine = true ∨ ¬ m.Drops (openLatency + closeLatency) rows rows' := by
  have latency := add_nonneg opening closing
  cases engine with
  | true => exact iff_of_true (cost_olap_mono olap startup latency more) (.inl rfl)
  | false =>
    rw [← not_lt, cost_lt_iff oltp latency more]
    simp only [Bool.false_eq_true, false_or]

private theorem fourLanes_batch : (fourLanes.batch : ℝ) = 100 := by norm_num [fourLanes, ofSettings, batch]

private theorem fourLanes_split (rows few : ℝ) (n : ℕ) (split : rows = n * 100 + few) (nonneg : 0 ≤ few)
    (small : few < 100) : fourLanes.wholeBatches rows = n ∧ fourLanes.leftover rows = few := by
  have whole : fourLanes.wholeBatches rows = n := by
    apply wholeBatches_eq <;> rw [fourLanes_batch, split] <;> linarith
  refine ⟨whole, ?_⟩
  rw [leftover, whole, fourLanes_batch, split]
  ring

private theorem fourLanes_nonneg :
    0 ≤ fourLanes.oltpRowCost ∧ 0 ≤ fourLanes.olapRowCost ∧ 0 ≤ fourLanes.olapStartupCost := by
  norm_num [fourLanes, ofSettings, Settings.exact]

/-- With half a batch left over both times, a batch more costs no less. -/
theorem cost_le_fourLanes : fourLanes.cost 250 0 0 false ≤ fourLanes.cost 350 0 0 false := by
  obtain ⟨oltp, olap, startup⟩ := fourLanes_nonneg
  obtain ⟨_, half⟩ := fourLanes_split 250 50 2 (by norm_num) (by norm_num) (by norm_num)
  obtain ⟨_, half'⟩ := fourLanes_split 350 50 3 (by norm_num) (by norm_num) (by norm_num)
  apply (cost_le_iff fourLanes oltp olap startup le_rfl le_rfl (by norm_num) false).mpr
  refine .inr fun drops => drops.cheaper.ne ?_
  rw [half, half']

/-- Two batches and a half cost 18750, and three batches 12500, as the half is one more call. -/
theorem cost_drops :
    0 ≤ fourLanes.oltpRowCost ∧ 0 ≤ fourLanes.olapRowCost ∧ 0 ≤ fourLanes.olapStartupCost ∧
      ¬ fourLanes.cost 250 0 0 false ≤ fourLanes.cost 300 0 0 false := by
  obtain ⟨oltp, olap, startup⟩ := fourLanes_nonneg
  obtain ⟨two, half⟩ := fourLanes_split 250 50 2 (by norm_num) (by norm_num) (by norm_num)
  obtain ⟨three, none⟩ := fourLanes_split 300 0 3 (by norm_num) (by norm_num) (by norm_num)
  have lanes : fourLanes.lanes = 4 := rfl
  have row : fourLanes.oltpRowCost = 125 := rfl
  have dear : fourLanes.cost 250 0 0 false = 18750 := by
    rw [cost_of_single_group (by omega) (by omega), half, call, call, fourLanes_batch, row]
    norm_num
  have cheap : fourLanes.cost 300 0 0 false = 12500 := by
    rw [cost_of_single_group (by omega) (by omega), none, call, call, fourLanes_batch, row]
    norm_num
  refine ⟨oltp, olap, startup, ?_⟩
  rw [dear, cheap]
  norm_num

end Selectivity.LookupModel
