import Selectivity.Estimate.Composition
import Selectivity.Proofs.Binary64Order

/-! The order in which selectivities are recorded does not matter to what they come to
together: they are sorted, and only zeros may still change places then. -/

namespace Selectivity

open Binary64 Float.Model

private theorem dampen_eq_self {x : Float} (fixed : unpacked x = .notANumber ∨ ∃ s, unpacked x = .zero s)
    (level : Nat) : dampen x level = x := by
  induction level with
  | zero => rfl
  | succ level ih => rw [dampen, ih]; exact sqrt_eq_self fixed

/-- One value that is no number makes all of it none. -/
private theorem composeFrom_nan {total : Float} {level : Nat} {values : List Float}
    (nan : unpacked total = .notANumber ∨ ∃ x ∈ values, unpacked x = .notANumber) :
    unpacked (composeFrom total level values) = .notANumber := by
  induction values generalizing total level with
  | nil => exact nan.resolve_right (by simp)
  | cons value values ih =>
    apply ih
    rcases nan with nan | ⟨x, member, nan⟩
    · exact .inl (unpacked_mul_nan (.inl nan))
    · rcases List.mem_cons.mp member with rfl | member
      · rw [dampen_eq_self (.inl nan)]
        exact .inl (unpacked_mul_nan (.inr nan))
      · exact .inr ⟨x, member, nan⟩

private theorem composeFrom_swap {x y : Float} (same : place (unpacked x) = place (unpacked y)) (total : Float)
    (level : Nat) (values : List Float) :
    composeFrom total level (x :: y :: values) = composeFrom total level (y :: x :: values) := by
  rcases eq_or_zeros same with rfl | ⟨⟨s, zero⟩, ⟨t, zero'⟩⟩
  · rfl
  · simp only [composeFrom, dampen_eq_self (.inr ⟨s, zero⟩), dampen_eq_self (.inr ⟨t, zero'⟩),
      mul_zeros_comm total zero zero']

private theorem composeFrom_front {x : Float} {before : List Float}
    (same : ∀ y ∈ before, place (unpacked y) = place (unpacked x)) (total : Float) (level : Nat) (after : List Float) :
    composeFrom total level (before ++ x :: after) = composeFrom total level (x :: (before ++ after)) := by
  induction before generalizing total level with
  | nil => rfl
  | cons y before ih =>
    obtain ⟨first, same⟩ := List.forall_mem_cons.mp same
    rw [List.cons_append, List.cons_append, ← composeFrom_swap first, composeFrom, composeFrom, ih same]

private theorem composeFrom_sorted {xs ys : List Float} (perm : xs.Perm ys)
    (sorted : xs.Pairwise fun x y => place (unpacked x) ≤ place (unpacked y))
    (sorted' : ys.Pairwise fun x y => place (unpacked x) ≤ place (unpacked y)) (total : Float) (level : Nat) :
    composeFrom total level xs = composeFrom total level ys := by
  induction xs generalizing ys total level with
  | nil => rw [perm.nil_eq]
  | cons x xs ih =>
    obtain ⟨before, after, rfl⟩ := List.append_of_mem (perm.subset List.mem_cons_self)
    obtain ⟨least, sorted⟩ := List.pairwise_cons.mp sorted
    have rest : xs.Perm (before ++ after) := (List.perm_cons x).mp (perm.trans List.perm_middle)
    have same : ∀ y ∈ before, place (unpacked y) = place (unpacked x) := by
      intro y member
      have below := (List.pairwise_append.mp sorted').2.2 y member x List.mem_cons_self
      exact le_antisymm below (least y (rest.mem_iff.mpr (List.mem_append_left after member)))
    rw [composeFrom_front same, composeFrom, composeFrom]
    exact ih rest sorted (sorted'.sublist ((List.sublist_cons_self x after).append_left before)) _ _

private theorem sorted_of_numbers {xs : List Float} (numbers : ∀ x ∈ xs, unpacked x ≠ .notANumber) :
    (xs.mergeSort Quantity.le).Pairwise fun x y => place (unpacked x) ≤ place (unpacked y) := by
  have agree : ∀ x ∈ xs, ∀ y ∈ xs, Quantity.le x y = decide (place (unpacked (id x)) ≤ place (unpacked (id y))) := by
    intro x inside y inside'
    rw [Bool.eq_iff_iff, le_iff, decide_eq_true_iff]
    exact ⟨fun ⟨_, _, below⟩ => below, fun below => ⟨numbers x inside, numbers y inside', below⟩⟩
  have byPlace : (xs.mergeSort Quantity.le).map id =
      (xs.map id).mergeSort fun x y => decide (place (unpacked x) ≤ place (unpacked y)) := List.map_mergeSort agree
  rw [List.map_id, List.map_id] at byPlace
  have sorted := @List.pairwise_mergeSort Float (fun x y => decide (place (unpacked x) ≤ place (unpacked y)))
    (fun x y z => by simpa only [decide_eq_true_iff] using le_trans)
    (fun x y => by simpa only [Bool.or_eq_true, decide_eq_true_iff] using le_total _ _) xs
  rw [byPlace]
  exact sorted.imp fun below => of_decide_eq_true below

private theorem composeFrom_perm {xs ys : List Float} (perm : xs.Perm ys) :
    composeFrom Quantity.one 0 (xs.mergeSort Quantity.le) = composeFrom Quantity.one 0 (ys.mergeSort Quantity.le) := by
  by_cases nan : ∃ x ∈ xs, unpacked x = .notANumber
  · obtain ⟨x, member, nan⟩ := nan
    apply unpacked_inj
    rw [composeFrom_nan (.inr ⟨x, List.mem_mergeSort.mpr member, nan⟩),
      composeFrom_nan (.inr ⟨x, List.mem_mergeSort.mpr (perm.mem_iff.mp member), nan⟩)]
  · have numbers : ∀ x ∈ xs, unpacked x ≠ .notANumber := fun x member number => nan ⟨x, member, number⟩
    have sorted := ((List.mergeSort_perm xs Quantity.le).trans perm).trans (List.mergeSort_perm ys Quantity.le).symm
    exact composeFrom_sorted sorted (sorted_of_numbers numbers)
      (sorted_of_numbers fun y member => numbers y (perm.mem_iff.mpr member)) _ 0

/-- What selectivities come to does not depend on the order they are given in. -/
theorem compose_perm {xs ys : List Float} (perm : xs.Perm ys) : compose xs = compose ys :=
  composeFrom_perm (perm.map Quantity.clamp)

end Selectivity
