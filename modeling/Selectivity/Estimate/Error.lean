/-! Why predicates cannot be turned into estimates. -/

namespace Selectivity

inductive EstimateError where
  | unknownComparator (given : String)
  | unboundedRange
  deriving DecidableEq, Repr

def EstimateError.message : EstimateError → String
  | .unknownComparator given => "Unknown relational operator: " ++ given
  | .unboundedRange => "Range estimate has neither a start nor a stop bound"

end Selectivity
