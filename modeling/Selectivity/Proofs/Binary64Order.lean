import Selectivity.Binary64
import Mathlib

/-! How doubles compare, multiply and take roots, as far as the order of factors depends on
it. Numbers are totally ordered, and two that are in order both ways are the same or the
two zeros. -/

namespace Selectivity.Binary64

open Float.Model (UnpackedFloat)

def unpacked (x : Float) : UnpackedFloat := x.toModel.unpack

/-- A double is known by what it unpacks to. -/
theorem unpacked_inj {x y : Float} (same : unpacked x = unpacked y) : x = y := by
  have bits := (UnpackedFloat.unpack_inj_of_valid x.toModel.valid y.toModel.valid).mp same
  obtain ⟨⟨⟨_⟩, _⟩⟩ := x
  obtain ⟨⟨⟨_⟩, _⟩⟩ := y
  cases bits
  rfl

theorem unpacked_nan : unpacked (.ofModel (.pack .notANumber)) = .notANumber :=
  @UnpackedFloat.unpack_packedNaN Float.Model.Format.binary64

theorem unpacked_zero (s : UnpackedFloat.Sign) : unpacked (.ofModel (.pack (.zero s))) = .zero s :=
  @UnpackedFloat.unpack_packedZero Float.Model.Format.binary64 s

/-- Where a double stands among all of them. -/
def place : UnpackedFloat → Int ×ₗ Int ×ₗ Int
  | .infinity .negative => toLex (-2, toLex (0, 0))
  | .finite .negative mantissa exponent _ => toLex (-1, toLex (-exponent, -mantissa))
  | .zero _ => toLex (0, toLex (0, 0))
  | .finite .positive mantissa exponent _ => toLex (1, toLex (exponent, mantissa))
  | .infinity .positive => toLex (2, toLex (0, 0))
  | .notANumber => toLex (3, toLex (0, 0))

private theorem isLE_then (e f : Int) (m n : Nat) :
    ((compare e f).then (compare m n)).isLE = true ↔ e < f ∨ e = f ∧ m ≤ n := by
  simp only [Ordering.isLE_then_iff_or, compare_lt_iff_lt, compare_eq_iff_eq, Nat.isLE_compare]

private theorem isGE_then (e f : Int) (m n : Nat) :
    ((compare e f).then (compare m n)).isGE = true ↔ f < e ∨ e = f ∧ n ≤ m := by
  rw [← Ordering.isLE_swap, Ordering.swap_then, ← Std.OrientedOrd.eq_swap, ← Std.OrientedOrd.eq_swap, isLE_then,
    eq_comm (a := e)]

private theorem le_eq (a b : UnpackedFloat) :
    a.le b = true ↔ a ≠ .notANumber ∧ b ≠ .notANumber ∧ place a ≤ place b := by
  rcases a with ⟨_ | _⟩ | _ | s | ⟨_ | _, m, e, _⟩ <;> rcases b with ⟨_ | _⟩ | _ | t | ⟨_ | _, n, f, _⟩ <;>
    simp [UnpackedFloat.le, UnpackedFloat.compare, place, Prod.Lex.le_iff, isLE_then, isGE_then]
  all_goals rfl

/-- Comparison is comparison of places, as long as both sides are numbers. -/
theorem le_iff {x y : Float} : Quantity.le x y = true ↔
    unpacked x ≠ .notANumber ∧ unpacked y ≠ .notANumber ∧ place (unpacked x) ≤ place (unpacked y) := by
  have model : Quantity.le x y = (unpacked x).le (unpacked y) := by
    show decide (decide ((unpacked x).le (unpacked y) = true) = true) = _
    rw [Bool.decide_eq_true, Bool.decide_eq_true]
  rw [model]
  exact le_eq (unpacked x) (unpacked y)

/-- Only the zeros share a place. -/
theorem eq_or_zeros {x y : Float} (same : place (unpacked x) = place (unpacked y)) :
    x = y ∨ (∃ s, unpacked x = .zero s) ∧ ∃ t, unpacked y = .zero t := by
  have unpackeds : ∀ a b : UnpackedFloat, place a = place b → a = b ∨ (∃ s, a = .zero s) ∧ ∃ t, b = .zero t := by
    intro a b same
    rcases a with ⟨_ | _⟩ | _ | s | ⟨_ | _, m, e, _⟩ <;> rcases b with ⟨_ | _⟩ | _ | t | ⟨_ | _, n, f, _⟩ <;>
      simp [place] at same ⊢
    all_goals exact same.symm
  exact (unpackeds _ _ same).imp_left unpacked_inj

/-! ### Multiplying and taking roots -/

theorem unpacked_mul_nan {x y : Float} (nan : unpacked x = .notANumber ∨ unpacked y = .notANumber) :
    unpacked (x * y) = .notANumber := by
  have packed : x * y = .ofModel (.pack .notANumber) := by
    show Float.ofModel (.pack (UnpackedFloat.mul Float.Model.Format.binary64 (unpacked x) (unpacked y))) = _
    rcases nan with nan | nan
    · rw [nan]
      rfl
    · rw [nan]
      cases unpacked x <;> rfl
  rw [packed, unpacked_nan]

theorem unpacked_mul_zero (x : Float) {y : Float} {s : UnpackedFloat.Sign} (zero : unpacked y = .zero s) :
    unpacked (x * y) = UnpackedFloat.mul Float.Model.Format.binary64 (unpacked x) (.zero s) := by
  show unpacked (.ofModel (.pack (UnpackedFloat.mul Float.Model.Format.binary64 (unpacked x) (unpacked y)))) = _
  rw [zero]
  cases unpacked x with
  | notANumber | infinity _ => exact unpacked_nan
  | zero _ | finite _ _ _ _ => exact unpacked_zero _

/-- The zeros among some factors may change places. -/
theorem mul_zeros_comm (x : Float) {y z : Float} {s t : UnpackedFloat.Sign} (first : unpacked y = .zero s)
    (second : unpacked z = .zero t) : x * y * z = x * z * y := by
  apply unpacked_inj
  rw [unpacked_mul_zero _ second, unpacked_mul_zero _ first, unpacked_mul_zero _ first, unpacked_mul_zero _ second]
  cases unpacked x with
  | notANumber | infinity _ => rfl
  | zero r | finite r _ _ _ => cases r <;> cases s <;> cases t <;> rfl

/-- Roots leave zeros alone, and what is not a number. -/
theorem sqrt_eq_self {x : Float} (fixed : unpacked x = .notANumber ∨ ∃ s, unpacked x = .zero s) : x.sqrt = x := by
  apply unpacked_inj
  show unpacked (.ofModel (.pack (UnpackedFloat.sqrt Float.Model.Format.binary64 (unpacked x)))) = _
  rcases fixed with nan | ⟨s, zero⟩
  · rw [nan]
    exact unpacked_nan
  · rw [zero]
    exact unpacked_zero s

end Selectivity.Binary64
