import Selectivity.AccessPath.Filing
import Selectivity.Estimate
import Selectivity.Wire.Predicate

/-! The exchanged form of estimates. -/

namespace Selectivity

def Range.members (r : Range Float) : List (String × Json) :=
  [("start", Scalar.encodeOption (r.start.map (·.value))),
   ("stop", Scalar.encodeOption (r.stop.map (·.value))),
   ("include_start", .bool r.includesStart),
   ("include_stop", .bool r.includesStop),
   ("use_extrapolation", .bool r.extrapolate)]

def Range.encode (r : Range Float) : Json := .object r.members

def EstimateKind.encode : EstimateKind Float → Json
  | .range r => .object (("type", .string "range") :: r.members)
  | .notEquals value => .object [("type", .string "not_equals"), ("value", value.encode)]
  | .null => .object [("type", .string "null")]
  | .notNull => .object [("type", .string "not_null")]
  | .default factor => .object [("type", .string "default"), ("factor", .ofFloat factor)]

def Estimate.encode (e : Estimate Float) : Json :=
  .object
    [("operand", e.operand.elim .null Operand.encode),
     ("slot", .ofNat e.slot),
     ("qualifier_phase", .string e.qualifier.name),
     ("join_predicate", .bool e.join),
     ("transformed", .bool e.transformed),
     ("kind", e.kind.encode)]

/-! ### As they are filed -/

namespace Filing

def Range.members (r : Range Float) : List (String × Json) :=
  [("start", Scalar.encodeOption r.start),
   ("stop", Scalar.encodeOption r.stop),
   ("include_start", .bool r.includeStart),
   ("include_stop", .bool r.includeStop),
   ("use_extrapolation", .bool r.extrapolate)]

def Range.encode (r : Range Float) : Json := .object r.members

def Kind.encode : Kind Float → Json
  | .range r => .object (("type", .string "range") :: r.members)
  | .notEquals value => .object [("type", .string "not_equals"), ("value", value.encode)]
  | .null => .object [("type", .string "null")]
  | .notNull => .object [("type", .string "not_null")]
  | .default factor => .object [("type", .string "default"), ("factor", .ofFloat factor)]

def Estimate.encode (e : Estimate Float) : Json :=
  .object
    [("operand", e.operand.elim .null Operand.encode),
     ("slot", .ofNat e.slot),
     ("qualifier_phase", .string e.qualifier.name),
     ("join_predicate", .bool e.join),
     ("transformed", .bool e.transformed),
     ("kind", e.kind.encode)]

end Filing
end Selectivity
