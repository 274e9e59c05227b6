import Selectivity.Catalog
import Selectivity.Wire.Predicate

/-! The exchanged form of table names and column statistics. -/

namespace Selectivity

def TableName.fields : Fields TableName :=
  TableName.mk <$> Fields.required "schema" Json.asString <*> Fields.required "name" Json.asString

def Bucket.fields : Fields (Bucket Float) :=
  Bucket.mk <$> Fields.required "lower" Json.asFloat
    <*> Fields.required "upper" Json.asFloat
    <*> Fields.required "count" Json.asFloat
    <*> Fields.required "distinct" Json.asFloat

def Histogram.fields : Fields (Histogram Float) :=
  Histogram.mk <$> Fields.required "buckets" (Json.asList Bucket.fields.decode)

def ColumnStats.fields : Fields (ColumnStats Float) :=
  ColumnStats.mk <$> Fields.required "distinct_count" Json.asFloat
    <*> Fields.required "null_fraction" Json.asFloat
    <*> Fields.optional "min_value" Scalar.decode
    <*> Fields.optional "max_value" Scalar.decode
    <*> Fields.optional "histogram" Histogram.fields.decode

end Selectivity
