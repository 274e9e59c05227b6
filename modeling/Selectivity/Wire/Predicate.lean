import Selectivity.AccessPath
import Selectivity.Column
import Selectivity.Json.Decode

/-! The exchanged form of predicates and of what they are made of. -/

namespace Selectivity

namespace Scalar

def encode : Value → Json
  | .null => .string "Null"
  | .bool value => .object [("Bool", .bool value)]
  | .int value => .object [("Int64", .int value.toInt)]
  | .float value => .object [("Float64", .ofFloat value)]
  | .text value => .object [("Utf8", .string value)]
  | .date days => .object [("Date", .int days.toInt)]

def decodeInt64 (j : Json) : Decoded Int64 :=
  (j.asInt Int64.minValue.toInt Int64.maxValue.toInt).map Int64.ofInt

def decodeInt32 (j : Json) : Decoded Int32 :=
  (j.asInt Int32.minValue.toInt Int32.maxValue.toInt).map Int32.ofInt

def decode (j : Json) : Decoded Value :=
  j.asVariant .buffered [("Null", .null)]
    [("Bool", fun j => j.asBool.map .bool),
     ("Int64", fun j => (decodeInt64 j).map .int),
     ("Float64", fun j => j.asFloat.map .float),
     ("Utf8", fun j => j.asString.map .text),
     ("Date", fun j => (decodeInt32 j).map .date)]

def encodeOption (value : Option Value) : Json := value.elim .null encode

end Scalar

namespace Comparator

def encode (op : Comparator) : Json := .string op.symbol

def decode (j : Json) : Decoded Comparator :=
  j.asVariant .buffered (all.map fun op => (op.symbol, op)) []

end Comparator

namespace Operand

def encode : Operand → Json
  | .column position => .object [("Column", .ofNat position.toNat)]
  | .expression position => .object [("IndexExpr", .ofNat position.toNat)]

def decode (reading : Reading) (j : Json) : Decoded Operand :=
  j.asVariant reading []
    [("Column", fun j => j.asIndex.map .column), ("IndexExpr", fun j => j.asIndex.map .expression)]

end Operand

namespace Qualifier

def all : List (String × Qualifier) :=
  [("Base", .base), ("FilterBase", .filterBase), ("FilterProjection", .filterProjection)]

def name : Qualifier → String
  | .base => "Base"
  | .filterBase => "FilterBase"
  | .filterProjection => "FilterProjection"

def decode (reading : Reading) (j : Json) : Decoded Qualifier := j.asVariant reading all []

end Qualifier

namespace Phase

def name : Phase → String
  | .scan => "Scan"
  | .top => "Top"

def decode (j : Json) : Decoded Phase :=
  j.asVariant .buffered [("Scan", .scan), ("Top", .top)] []

end Phase

def JoinMethod.decode (reading : Reading) (j : Json) : Decoded JoinMethod :=
  j.asVariant reading
    [("NestedLoop", .nestedLoop), ("Hash", .hash), ("Merge", .merge), ("Broadcast", .broadcast)] []

namespace Predicate

def encodeKind : PredicateKind Float → Json
  | .compare op value =>
    .object [("Compare", .object [("op", op.encode), ("value", Scalar.encodeOption value)])]
  | .between low high =>
    .object [("Between", .object [("low", Scalar.encodeOption low), ("high", Scalar.encodeOption high)])]
  | .other => .string "Other"

def decodeKind (j : Json) : Decoded (PredicateKind Float) :=
  j.asVariant .buffered [("Other", .other)]
    [("Compare", (PredicateKind.compare <$> Fields.required "op" Comparator.decode
        <*> Fields.optional "value" Scalar.decode).decode),
     ("Between", (PredicateKind.between <$> Fields.optional "low" Scalar.decode
        <*> Fields.optional "high" Scalar.decode).decode)]

def encode (p : Predicate Float) : Json :=
  .object
    [("operand", p.operand.elim .null Operand.encode),
     ("kind", encodeKind p.kind),
     ("join_predicate", .bool p.join),
     ("transformed", .bool p.transformed)]

def fields : Fields (Predicate Float) :=
  Predicate.mk <$> Fields.optional "operand" (Operand.decode .buffered)
    <*> Fields.required "kind" decodeKind
    <*> Fields.withDefault "join_predicate" Json.asBool false
    <*> Fields.withDefault "transformed" Json.asBool false

end Predicate

namespace Column

def encode (c : Column) : Json :=
  .object
    [("table", c.table.elim .null Json.string),
     ("name", .string c.name),
     ("index", .ofNat c.index.toNat)]

def fields : Fields Column :=
  Column.mk <$> Fields.optional "table" Json.asString
    <*> Fields.required "name" Json.asString
    <*> Fields.required "index" Json.asIndex

def decode : Json → Decoded Column := fields.decode

end Column

def AccessPath.fields : Fields (AccessPath Float) :=
  AccessPath.mk <$> Fields.required "name" Json.asString
    <*> Fields.withDefault "covering" Json.asBool true
    <*> Fields.withDefault "is_olap" Json.asBool false
    <*> Fields.optional "join_strategy" (JoinMethod.decode .streamed)
    <*> Fields.withDefault "extrapolated" (Json.asList (Operand.decode .streamed)) []
    <*> Fields.withDefault "row_width_bytes" Json.asFloat AccessPath.defaultRowWidth

end Selectivity
