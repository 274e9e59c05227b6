import Selectivity.Expr
import Selectivity.Wire.Predicate

/-! The exchanged form of expressions. A node is an object whose `type` says what
its other members are. The object is read as a whole before it is decoded, and
below the outermost node the type may also be given by its position. -/

namespace Selectivity

namespace Term

def encode : Term → Json
  | .column c => .object [("Column", c.encode)]
  | .literal value => .object [("Literal", value.encode)]

def decode (j : Json) : Decoded Term :=
  j.asVariant .buffered []
    [("Column", fun j => (Column.decode j).map .column),
     ("Literal", fun j => (Scalar.decode j).map .literal)]

end Term

namespace Atom

def encode : Atom → Json
  | .compare op left right =>
    .object
      [("type", .string "compare"),
       ("op", op.encode),
       ("left", left.encode),
       ("right", right.elim .null Term.encode)]
  | .inList columns rows negated =>
    .object
      [("type", .string "in_list"),
       ("columns", .array (columns.map Column.encode)),
       ("values", .array (rows.map fun row => .array (row.map Scalar.encode))),
       ("negated", .bool negated)]
  | .constant value => .object [("type", .string "constant"), ("value", .bool value)]

def compareFields : Fields Atom :=
  compare <$> Fields.required "op" Comparator.decode
    <*> Fields.required "left" Term.decode
    <*> Fields.optional "right" Term.decode

def inListFields : Fields Atom :=
  inList <$> Fields.required "columns" (Json.asList Column.decode)
    <*> Fields.required "values" (Json.asList (Json.asList Scalar.decode))
    <*> Fields.withDefault "negated" Json.asBool false

def constantFields : Fields Atom := constant <$> Fields.required "value" Json.asBool

end Atom

namespace Expr

/-- The kinds of nodes. -/
inductive Tag where
  | and | or | not | compare | inList | constant

def Tag.all : List (String × Tag) :=
  [("and", .and), ("or", .or), ("not", .not), ("compare", .compare), ("in_list", .inList),
   ("constant", .constant)]

def Tag.decode (reading : Reading) (j : Json) : Decoded Tag :=
  match j, reading with
  | .string name, _ =>
    match all.lookup name with
    | some found => .ok found
    | none => .error .mismatch
  | .int position, .buffered =>
    match (all.map (·.2))[position.toNat]? with
    | some found => if position < 0 then .error .mismatch else .ok found
    | none => .error .mismatch
  | other, _ => .error other.refusal

def encode : Expr → Json
  | .link .and left right =>
    .object [("type", .string "and"), ("left", left.encode), ("right", right.encode)]
  | .link .or left right =>
    .object [("type", .string "or"), ("left", left.encode), ("right", right.encode)]
  | .not operand => .object [("type", .string "not"), ("operand", operand.encode)]
  | .atom leaf => leaf.encode

/-- The members of a node, by its type and the decoder for the nodes below. -/
def fieldsOf (below : Json → Decoded Expr) : Tag → Fields Expr
  | .and => link .and <$> Fields.required "left" below <*> Fields.required "right" below
  | .or => link .or <$> Fields.required "left" below <*> Fields.required "right" below
  | .not => not <$> Fields.required "operand" below
  | .compare => atom <$> Atom.compareFields
  | .inList => atom <$> Atom.inListFields
  | .constant => atom <$> Atom.constantFields

/-- A type and, kept for later, all other members. -/
def tagged (reading : Reading) : Fields (Tag × List (String × Json)) where
  Found := Option Tag × List (String × Json)
  start := (none, [])
  take found name value :=
    some <|
      if name = "type" then
        if found.1.isSome then .error .mismatch
        else (Tag.decode reading value).map fun tag => (some tag, found.2)
      else value.buffer.map fun _ => (found.1, (name, value) :: found.2)
  finish found :=
    match found.1 with
    | some tag => .ok (tag, found.2.reverse)
    | none => .error .mismatch

def decodeAt : Nat → Reading → Json → Decoded Expr
  | 0, _, _ => .error .mismatch
  | depth + 1, reading, j => do
    let (tag, members) ← (tagged reading).decode j
    (fieldsOf (decodeAt depth .buffered) tag).members members

def decode (j : Json) : Decoded Expr := decodeAt j.size .streamed j

end Expr
end Selectivity
