import Selectivity.Comparator
import Selectivity.Scalar

/-! How the comparison of two constants behaves when its sides change places, and when
a side is replaced by an equal constant. -/

namespace Selectivity

namespace Comparator

/-- The outcomes of comparing the left side with the right one that an operator accepts. -/
def accepts (op : Comparator) (outcome : Ordering) : Bool :=
  match op with
  | eq => outcome.isEq
  | ne => outcome.isNe
  | gt => outcome.isGT
  | ge => outcome.isGE
  | lt => outcome.isLT
  | le => outcome.isLE
  | isNull | isNotNull => false

end Comparator

variable {α : Type} [Quantity α]

def Comparator.holds (op : Comparator) (left right : Scalar α) : Bool := (left.compare? right).any op.accepts

namespace Scalar

/-- On these constants the comparison is a total preorder. -/
structure Ordered (D : Scalar α → Prop) : Prop where
  comparable : ∀ {a b}, D a → D b → ∃ outcome, a.compare? b = some outcome
  swap : ∀ {a b}, D a → D b → b.compare? a = (a.compare? b).map Ordering.swap
  trans : ∀ {a b c}, D a → D b → D c → Comparator.le.holds a b = true → Comparator.le.holds b c = true →
    Comparator.le.holds a c = true

theorem Ordered.congr {D : Scalar α → Prop} (ordered : Ordered D) {x a b : Scalar α} (dx : D x) (da : D a)
    (db : D b) (equal : a.equates b = true) : x.compare? a = x.compare? b := by
  have same : a.compare? b = some .eq := beq_iff_eq.mp equal
  have swapped : b.compare? a = some .eq := by rw [ordered.swap da db, same]; rfl
  have ab : Comparator.le.holds a b = true := by rw [Comparator.holds, same]; rfl
  have ba : Comparator.le.holds b a = true := by rw [Comparator.holds, swapped]; rfl
  obtain ⟨first, toA⟩ := ordered.comparable dx da
  obtain ⟨second, toB⟩ := ordered.comparable dx db
  have fromA : a.compare? x = some first.swap := by rw [ordered.swap dx da, toA]; rfl
  have fromB : b.compare? x = some second.swap := by rw [ordered.swap dx db, toB]; rfl
  have up (below : Comparator.le.holds x a = true) := ordered.trans dx da db below ab
  have up' (below : Comparator.le.holds x b = true) := ordered.trans dx db da below ba
  have down (above : Comparator.le.holds a x = true) := ordered.trans db da dx ba above
  have down' (above : Comparator.le.holds b x = true) := ordered.trans da db dx ab above
  simp only [Comparator.holds, toA, toB, fromA, fromB, Option.any_some, Comparator.accepts] at up up' down down'
  rw [toA, toB]
  cases first <;> cases second <;> first | rfl | simp at up up' down down'

theorem Ordered.refl {D : Scalar α → Prop} (ordered : Ordered D) {a : Scalar α} (da : D a) : a.equates a = true := by
  obtain ⟨outcome, compared⟩ := ordered.comparable da da
  have swapped := ordered.swap da da
  rw [compared, Option.map_some, Option.some.injEq] at swapped
  cases outcome with
  | eq => exact beq_iff_eq.mpr compared
  | lt | gt => cases swapped

theorem Ordered.symm {D : Scalar α → Prop} (ordered : Ordered D) {a b : Scalar α} (da : D a) (db : D b)
    (same : a.equates b = true) : b.equates a = true := by
  have swapped := ordered.swap da db
  rw [beq_iff_eq.mp same] at swapped
  exact beq_iff_eq.mpr swapped

theorem Ordered.eqv {D : Scalar α → Prop} (ordered : Ordered D) {a b c : Scalar α} (da : D a) (db : D b) (dc : D c)
    (first : a.equates b = true) (second : b.equates c = true) : a.equates c = true := by
  rw [equates, ← ordered.congr da db dc second]
  exact first

theorem compare_toInt (i j : Int64) : compare i j = compare i.toInt j.toInt := by
  simp only [compare, compareOfLessAndEq, Int64.lt_iff_toInt_lt, Int64.toInt_inj]

theorem ints_ordered : Ordered fun value : Scalar α => ∃ i, value = .int i where
  comparable := by
    rintro _ _ ⟨i, rfl⟩ ⟨j, rfl⟩
    exact ⟨_, rfl⟩
  swap := by
    rintro _ _ ⟨i, rfl⟩ ⟨j, rfl⟩
    exact congrArg some Std.OrientedOrd.eq_swap
  trans := by
    rintro _ _ _ ⟨i, rfl⟩ ⟨j, rfl⟩ ⟨k, rfl⟩ first second
    exact Std.TransCmp.isLE_trans first second

theorem compare?_swap (a b : Value) : b.compare? a = (a.compare? b).map Ordering.swap := by
  cases a <;> cases b <;>
    simp only [compare?, Option.map_some, Option.map_none, Quantity.order, Binary64.order, Option.some.injEq]
  all_goals exact Std.OrientedOrd.eq_swap

theorem compare?_congr {a b : Value} (same : (a == b) = true) (x : Value) : x.compare? a = x.compare? b := by
  change beq a b = true at same
  cases a <;> cases b <;> simp only [beq, beq_iff_eq, Bool.false_eq_true] at same
  case null.null => rfl
  case float.float a b =>
    have rank : Binary64.rank a = Binary64.rank b := Std.LawfulEqOrd.eq_of_compare same
    cases x <;> simp only [compare?, Quantity.order, Binary64.order, rank]
  all_goals rw [same]

end Scalar
end Selectivity
