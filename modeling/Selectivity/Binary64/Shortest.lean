import Selectivity.Binary64

/-! The shortest decimal that reads back as a given double, and its plain text.
A decimal reads back exactly if it lies in the interval of reals that round to
the double; the coarsest power-of-ten grid with a point in it gives the digits. -/

namespace Selectivity.Binary64

/-- A positive value `value / unit` and the closest reals that still round to it.
The ends belong to the interval when the significand is even. -/
structure Interval where
  low : Nat
  value : Nat
  high : Nat
  unit : Nat
  closed : Bool

/-- The interval of `significand * 2 ^ exponent`. Below a power of two the next
double is half as far away as above it. -/
def interval (significand : Nat) (exponent : Int) (narrow : Bool) : Interval :=
  let scale := if exponent < 2 then 0 else exponent.toNat - 2
  let unit := if exponent < 2 then Nat.pow 2 (2 - exponent).toNat else 1
  { low := (4 * significand - if narrow then 1 else 2) * Nat.pow 2 scale
    value := 4 * significand * Nat.pow 2 scale
    high := (4 * significand + 2) * Nat.pow 2 scale
    unit := unit
    closed := significand % 2 = 0 }

def Interval.contains (i : Interval) (point : Nat) : Bool :=
  if i.closed then i.low ≤ point && point ≤ i.high else i.low < point && point < i.high

/-- The interval in units of `10 ^ exponent`, all four numbers kept whole. -/
def Interval.rescale (i : Interval) (exponent : Int) : Interval :=
  if exponent < 0 then
    let factor := Nat.pow 10 exponent.natAbs
    { i with low := i.low * factor, value := i.value * factor, high := i.high * factor }
  else { i with unit := i.unit * Nat.pow 10 exponent.natAbs }

/-- The multiple of the unit in the interval that is nearest to its value, if any.
No other multiple than the value's two neighbours can be. -/
def Interval.nearest? (i : Interval) : Option Nat :=
  let below := i.value / i.unit
  let above := below + 1
  let lowerFits := 0 < below && i.contains (below * i.unit)
  let upperFits := i.contains (above * i.unit)
  if lowerFits && upperFits then
    some (if i.value - below * i.unit ≤ above * i.unit - i.value then below else above)
  else if lowerFits then some below
  else if upperFits then some above
  else none

/-- Digits and exponent on the coarsest grid that has a point in the interval. -/
def coarsest (i : Interval) : Nat → Int → Nat × Int
  | 0, exponent => ((i.rescale exponent).value / (i.rescale exponent).unit, exponent)
  | steps + 1, exponent =>
    match (i.rescale exponent).nearest? with
    | some digits => (digits, exponent)
    | none => coarsest i steps (exponent - 1)

/-- Digits and exponent of a positive finite double, given its bits without the sign. -/
def shortest (bits : Nat) : Nat × Int :=
  let field := bits / Nat.pow 2 52
  let fraction := bits % Nat.pow 2 52
  let significand := if field = 0 then fraction else fraction + Nat.pow 2 52
  let exponent : Int := ((if field = 0 then 1 else field : Nat) : Int) - 1075
  let top := (significand.log2 : Int) + exponent
  coarsest (interval significand exponent (fraction = 0 ∧ 1 < field)) 25 (top * 30103 / 100000 + 1)

private def zeros (n : Nat) : String := "".pushn '0' n

/-- Digits written out in full, however large or small the exponent. -/
def positional (digits : Nat) (exponent : Int) : String :=
  let text := toString digits
  if 0 ≤ exponent then text ++ zeros exponent.toNat
  else
    let places := exponent.natAbs
    let padded := zeros (places + 1 - text.length) ++ text
    let chars := padded.toList
    String.ofList (chars.take (chars.length - places)) ++ "." ++
      String.ofList (chars.drop (chars.length - places))

/-- A double in the fewest digits that read back, never with an exponent. -/
def text (x : Float) : String :=
  let bits := x.toBits.toNat
  let magnitude := bits % Nat.pow 2 63
  if magnitude > 2047 * Nat.pow 2 52 then "NaN"
  else
    let sign := if Nat.pow 2 63 ≤ bits then "-" else ""
    if magnitude = 2047 * Nat.pow 2 52 then sign ++ "inf"
    else if magnitude = 0 then sign ++ "0"
    else
      let (digits, exponent) := shortest magnitude
      sign ++ positional digits exponent

end Selectivity.Binary64
