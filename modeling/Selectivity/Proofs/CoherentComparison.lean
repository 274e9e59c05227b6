import Selectivity.Proofs.NearestIntegers
import Selectivity.Proofs.ValueOrder

/-! Where the comparison of constants is one order. Two integers are compared exactly, but an
integer and a float by the double nearest to the integer. Of all comparable constants it is only
two integers with a float between them, nearest to both, that this tears apart. -/

namespace Selectivity.Scalar

/-- On these constants the comparison orders, and equality in the sense of SQL goes with it:
it is an equivalence that equality as stored values implies. -/
structure Coherent (D : Value → Prop) : Prop extends Ordered D where
  refl : ∀ {a}, D a → a.equates a = true
  symm : ∀ {a b}, D a → D b → a.equates b = true → b.equates a = true
  eqv : ∀ {a b c}, D a → D b → D c → a.equates b = true → b.equates c = true → a.equates c = true
  of_beq : ∀ {a b}, D a → D b → (a == b) = true → a.equates b = true

/-- Different integers of these constants have no common nearest double among them. -/
def Separates (D : Value → Prop) : Prop :=
  ∀ {i j x}, D (.int i) → D (.int j) → D (.float x) →
    (int i).equates (.float x) = true → (int j).equates (.float x) = true → i = j

variable {D : Value → Prop} {a b c : Value} {i j : Int64} {x y : Float}

/-! ### Numbers at their places -/

/-- Where a number stands when it is compared with a float. -/
def place : Value → Int
  | .int i => Binary64.rank (Binary64.ofInt i.toInt)
  | .float x => Binary64.rank x
  | _ => 0

theorem le_iff {s t : Int} (outcome : a.compare? b = some (compare s t)) :
    Comparator.le.holds a b = true ↔ s ≤ t := by
  rw [Comparator.holds, outcome]
  exact Std.isLE_compare

theorem equates_iff {s t : Int} (outcome : a.compare? b = some (compare s t)) :
    a.equates b = true ↔ s = t := by
  rw [equates, outcome, beq_iff_eq, Option.some.injEq, compare_eq_iff_eq]

theorem le_int : Comparator.le.holds (int i : Value) (.int j) = true ↔ i.toInt ≤ j.toInt :=
  le_iff (congrArg some (compare_toInt i j))

theorem equates_int : (int i : Value).equates (.int j) = true ↔ i = j := by
  have places : (int i : Value).equates (.int j) = true ↔ i.toInt = j.toInt :=
    equates_iff (congrArg some (compare_toInt i j))
  exact places.trans Int64.toInt_inj

theorem le_int_float : Comparator.le.holds (int i : Value) (.float y) = true ↔ place (.int i) ≤ place (.float y) :=
  le_iff rfl

theorem le_float_int : Comparator.le.holds (float x : Value) (.int j) = true ↔ place (.float x) ≤ place (.int j) :=
  le_iff rfl

theorem le_float : Comparator.le.holds (float x : Value) (.float y) = true ↔ place (.float x) ≤ place (.float y) :=
  le_iff rfl

theorem equates_int_float : (int i : Value).equates (.float x) = true ↔ place (.int i) = place (.float x) :=
  equates_iff rfl

theorem equates_float_int : (float x : Value).equates (.int j) = true ↔ place (.float x) = place (.int j) :=
  equates_iff rfl

/-- Integers in order stand in order. -/
theorem place_mono (less : i.toInt ≤ j.toInt) : place (.int i) ≤ place (.int j) :=
  Binary64.rank_ofInt_mono less

/-! ### Transitivity -/

/-- A float cannot come between two integers against their order unless it is nearest to both. -/
theorem Separates.int_le (separates : Separates D) (di : D (.int i)) (dj : D (.int j)) (dx : D (.float x))
    (first : place (.int i) ≤ place (.float x)) (second : place (.float x) ≤ place (.int j)) :
    i.toInt ≤ j.toInt := by
  rcases Int.le_total i.toInt j.toInt with less | more
  · exact less
  · have back := place_mono more
    have fromI : (int i : Value).equates (.float x) = true := equates_int_float.mpr (by omega)
    have fromJ : (int j : Value).equates (.float x) = true := equates_int_float.mpr (by omega)
    rw [separates di dj dx fromI fromJ]

theorem Separates.le_trans (separates : Separates D) (da : D a) (db : D b) (dc : D c)
    (first : Comparator.le.holds a b = true) (second : Comparator.le.holds b c = true) :
    Comparator.le.holds a c = true := by
  -- Only constants of one type compare, and numbers among each other.
  cases a <;> cases b <;> try exact absurd first Bool.false_ne_true
  all_goals cases c <;> try exact absurd second Bool.false_ne_true
  case bool.bool.bool | text.text.text | date.date.date => exact Std.TransCmp.isLE_trans first second
  case int.int.int => exact le_int.mpr ((le_int.mp first).trans (le_int.mp second))
  case int.int.float => exact le_int_float.mpr ((place_mono (le_int.mp first)).trans (le_int_float.mp second))
  case int.float.int => exact le_int.mpr (separates.int_le da dc db (le_int_float.mp first) (le_float_int.mp second))
  case int.float.float => exact le_int_float.mpr ((le_int_float.mp first).trans (le_float.mp second))
  case float.int.int => exact le_float_int.mpr ((le_float_int.mp first).trans (place_mono (le_int.mp second)))
  case float.int.float => exact le_float.mpr ((le_float_int.mp first).trans (le_int_float.mp second))
  case float.float.int => exact le_float_int.mpr ((le_float.mp first).trans (le_float_int.mp second))
  case float.float.float => exact le_float.mpr ((le_float.mp first).trans (le_float.mp second))

/-! ### Equality -/

theorem equates_of_beq (some : ∃ outcome, a.compare? b = some outcome) (same : (a == b) = true) :
    a.equates b = true := by
  change beq a b = true at same
  cases a <;> cases b <;> try exact absurd same Bool.false_ne_true
  case null.null =>
    obtain ⟨outcome, none⟩ := some
    cases none
  case float.float => exact beq_iff_eq.mpr (congrArg Option.some (beq_iff_eq.mp same))
  all_goals
    rw [eq_of_beq same]
    exact beq_iff_eq.mpr (congrArg Option.some Std.ReflCmp.compare_self)

/-- Comparable constants are ordered coherently exactly if different integers keep apart. -/
theorem coherent_iff_separates (comparable : ∀ {a b}, D a → D b → ∃ outcome, a.compare? b = some outcome) :
    Coherent D ↔ Separates D := by
  constructor
  · intro coherent i j x di dj dx fromI fromJ
    exact equates_int.mp (coherent.eqv di dx dj fromI (coherent.symm dj dx fromJ))
  · intro separates
    have ordered : Ordered D :=
      { comparable := comparable
        swap := fun {a b} _ _ => compare?_swap a b
        trans := separates.le_trans }
    exact
      { toOrdered := ordered
        refl := ordered.refl
        symm := ordered.symm
        eqv := ordered.eqv
        of_beq := fun da db => equates_of_beq (comparable da db) }

/-- Every float, and the integers that are doubles as far as all of them are. -/
def Exact : Value → Prop
  | .int i => i.toInt.natAbs ≤ 2 ^ 53
  | .float _ => True
  | _ => False

theorem Exact.comparable (da : Exact a) (db : Exact b) : ∃ outcome, a.compare? b = some outcome := by
  cases a <;> try exact da.elim
  all_goals cases b <;> first | exact db.elim | exact ⟨_, rfl⟩

theorem Exact.separates : Separates Exact := by
  intro i j x small small' _ fromI fromJ
  have same := (equates_int_float.mp fromI).trans (equates_int_float.mp fromJ).symm
  exact Int64.toInt_inj.mp (Binary64.rank_ofInt_inj small small' same)

theorem coherent_exact : Coherent Exact :=
  (coherent_iff_separates Exact.comparable).mpr Exact.separates

/-- An integer that is no double equals the float below, which is the next integer down. -/
theorem compare?_nearest :
    (int 9007199254740993 : Value).compare? (.float (Binary64.ofInt 9007199254740992)) = some .eq ∧
      (float (Binary64.ofInt 9007199254740992) : Value).compare? (.int 9007199254740992) = some .eq ∧
      (int 9007199254740993 : Value).compare? (.int 9007199254740992) = some .gt := by
  have nearest : place (.int 9007199254740993) = place (.float (Binary64.ofInt 9007199254740992)) := by
    rw [place, place, Binary64.rank_ofInt, Binary64.rank_ofInt]
    decide
  exact ⟨beq_iff_eq.mp (equates_int_float.mpr nearest), beq_iff_eq.mp (equates_float_int.mpr rfl), by decide⟩

end Selectivity.Scalar
