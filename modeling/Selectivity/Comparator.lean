import Selectivity.Estimate.Error

/-! The operators of a single predicate: six comparisons and the two null tests.
A binder names them by number; texts name them by symbol. -/

namespace Selectivity

inductive Comparator where
  | eq | ne | gt | ge | lt | le | isNull | isNotNull
  deriving DecidableEq, Repr

namespace Comparator

def all : List Comparator := [eq, ne, gt, ge, lt, le, isNull, isNotNull]

def code : Comparator → Nat
  | eq => 1
  | ne => 2
  | gt => 3
  | ge => 4
  | lt => 5
  | le => 6
  | isNull => 7
  | isNotNull => 8

def symbol : Comparator → String
  | eq => "="
  | ne => "<>"
  | gt => ">"
  | ge => ">="
  | lt => "<"
  | le => "<="
  | isNull => "IS NULL"
  | isNotNull => "IS NOT NULL"

def ofCode (code : Nat) : Except EstimateError Comparator :=
  match all.find? (·.code == code) with
  | some found => .ok found
  | none => .error (.unknownComparator (toString code))

/-- White space around an operator, wherever it may be written by hand. -/
def blank (c : Char) : Bool :=
  c == ' ' || ('\t' ≤ c && c ≤ '\x0d') || c == '\x85' || c == '\xa0' || c == '\u1680' ||
    ('\u2000' ≤ c && c ≤ '\u200a') || c == '\u2028' || c == '\u2029' || c == '\u202f' ||
    c == '\u205f' || c == '\u3000'

def trim (text : String) : String :=
  String.ofList (((text.toList.dropWhile blank).reverse.dropWhile blank).reverse)

/-- Reads an operator in either case; only ASCII letters have one here. -/
def parse (text : String) : Except EstimateError Comparator :=
  let word := String.ofList ((trim text).toList.map Char.toUpper)
  if word = "!=" then .ok ne
  else match all.find? (·.symbol == word) with
    | some found => .ok found
    | none => .error (.unknownComparator text)

def isComparison : Comparator → Bool
  | isNull | isNotNull => false
  | _ => true

/-- The operator with the opposite answer. -/
def negate : Comparator → Comparator
  | eq => ne
  | ne => eq
  | gt => le
  | ge => lt
  | lt => ge
  | le => gt
  | isNull => isNotNull
  | isNotNull => isNull

/-- The operator to use when the sides change places. -/
def flip : Comparator → Comparator
  | gt => lt
  | ge => le
  | lt => gt
  | le => ge
  | other => other

end Comparator
end Selectivity
