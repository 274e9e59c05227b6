import Selectivity.Settings
import Selectivity.Statistics.Column

/-! Statistics of one table, by operand. An operand without statistics gets the
fallbacks, and a range of one point is an equality whatever is known of it. -/

namespace Selectivity

structure TableStats (α : Type) where
  rows : α
  columns : List (Operand × ColumnStats α) := []
  equalityFallback : α
  rangeFallback : α

namespace TableStats

variable {α : Type} [Quantity α]
open Quantity

def ofRows (rows : Float) : TableStats Float :=
  { rows
    equalityFallback := Settings.default.equalitySelectivity
    rangeFallback := Settings.default.rangeSelectivity }

def withFallbacks (t : TableStats α) (s : Settings α) : TableStats α :=
  { t with equalityFallback := s.equalitySelectivity, rangeFallback := s.rangeSelectivity }

/-- Adds the statistics of an operand; the latest ones count. -/
def withColumn (t : TableStats α) (operand : Operand) (stats : ColumnStats α) : TableStats α :=
  { t with columns := (operand, stats) :: t.columns }

def column? (t : TableStats α) (operand : Operand) : Option (ColumnStats α) :=
  t.columns.lookup operand

def point (t : TableStats α) (operand : Operand) (value : Scalar α) : α :=
  match t.column? operand with
  | some c => c.point value
  | none => t.equalityFallback

def openRange (t : TableStats α) (operand : Operand) (start stop : Option (Bound α))
    (extrapolate : Bool) : α :=
  match t.column? operand with
  | some c => c.range t.rangeFallback start stop extrapolate
  | none => t.rangeFallback

def range (t : TableStats α) (operand : Operand) (start stop : Option (Bound α))
    (extrapolate : Bool) : α :=
  match start, stop with
  | some first, some last =>
    match first.value.compare? last.value with
    | some .eq => if first.inclusive && last.inclusive then t.point operand first.value else zero
    | some .gt => zero
    | _ => t.openRange operand start stop extrapolate
  | _, _ => t.openRange operand start stop extrapolate

def provider (t : TableStats α) : Provider α where
  range := t.range
  point := t.point
  nullFraction operand := (t.column? operand).elim zero ColumnStats.nullFraction
  least operand := (t.column? operand).bind ColumnStats.least
  greatest operand := (t.column? operand).bind ColumnStats.greatest
  knows operand := (t.column? operand).isSome

end TableStats
end Selectivity
