import Selectivity.Quantity

/-! Binary64 as a `Quantity`. Values are ordered through `rank`, the magnitude of
the bit pattern with its sign, and integers are rounded to the nearest pattern,
ties to even, so that both are facts about integers. -/

namespace Selectivity.Binary64

/-- A double's place among all doubles. The two zeros share a place, and what is
not a number comes after positive infinity. -/
def rank (x : Float) : Int :=
  let bits := x.toBits.toNat
  if bits < Nat.pow 2 63 then bits else -((bits - Nat.pow 2 63 : Nat) : Int)

def order (x y : Float) : Ordering := compare (rank x) (rank y)

/-- `n / 2 ^ shift` to the nearest integer, halves to the even one. -/
def roundShift (n shift : Nat) : Nat :=
  let quotient := n >>> shift
  let unit := Nat.pow 2 shift
  let rest := 2 * (n % unit)
  if rest > unit ∨ rest = unit ∧ quotient % 2 = 1 then quotient + 1 else quotient

/-- The pattern of the double nearest to a natural number. The significand keeps
its leading one, which adds one to the exponent field; a significand rounded up
to the next power of two carries into that field by the same addition. -/
def patternOfNat (n : Nat) : Nat :=
  if n = 0 then 0
  else
    let top := n.log2
    if top > 1023 then 2047 * Nat.pow 2 52
    else
      let significand := if top ≤ 52 then n <<< (52 - top) else roundShift n (top - 52)
      (top + 1022) * Nat.pow 2 52 + significand

def patternOfInt (i : Int) : Nat :=
  if i < 0 then Nat.pow 2 63 + patternOfNat i.natAbs else patternOfNat i.natAbs

def ofInt (i : Int) : Float := Float.ofBits (UInt64.ofNat (patternOfInt i))

/-- The double nearest to a decimal, or nothing beyond the largest finite one. -/
def ofDecimal? (negative : Bool) (digits : Nat) (exponent : Int) : Option Float :=
  let magnitude :=
    if digits = 0 then 0.0
    else
      let top := exponent + (Nat.toDigits 10 digits).length
      if top > 310 then 1.0 / 0.0
      else if top < -330 then 0.0
      else Float.ofScientific digits (exponent < 0) exponent.natAbs
  if magnitude.isInf then none else some (if negative then -magnitude else magnitude)

instance : Quantity Float where
  zero := 0.0
  one := 1.0
  ofInt := ofInt
  lt x y := x < y
  le x y := x ≤ y
  order := order
  sqrt := Float.sqrt
  floor := Float.floor
  ceil := Float.ceil

end Selectivity.Binary64
