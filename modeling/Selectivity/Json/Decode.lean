import Selectivity.Binary64
import Selectivity.Json

/-! Decoding JSON into typed values. Decoders go through a value from the left and
stop at the first thing wrong: text that is no JSON, or JSON of another shape.
A record names its members once, with unknown ones skipped and repeats refused. -/

namespace Selectivity

inductive DecodeError where
  /-- The text is not JSON. -/
  | malformed
  /-- JSON of the wrong shape. -/
  | mismatch
  deriving DecidableEq, Repr

abbrev Decoded (α : Type) := Except DecodeError α

/-- Whether a value is decoded while its text is being read, or after the object
around it was read as a whole. Only the kind of error depends on it, and whether
an alternative may be given by its position. -/
inductive Reading where
  | streamed
  | buffered
  deriving DecidableEq

namespace Json

/-- The error for a value whose shape is not the expected one. -/
def refusal : Json → DecodeError
  | .fault | .unusable _ => .malformed
  | _ => .mismatch

def skip (j : Json) : Decoded Unit := if j.whole then .ok () else .error .malformed

def buffer (j : Json) : Decoded Unit := if j.usable then .ok () else .error .malformed

def asBool : Json → Decoded Bool
  | .bool value => .ok value
  | j => .error j.refusal

def asString : Json → Decoded String
  | .string value => .ok value
  | j => .error j.refusal

/-- An integer within bounds. -/
def asInt (low high : Int) : Json → Decoded Int
  | .int value => if low ≤ value ∧ value ≤ high then .ok value else .error .mismatch
  | j => .error j.refusal

/-- A count of 64 bits. -/
def asCount (j : Json) : Decoded Nat := (asInt 0 (UInt64.size - 1) j).map Int.toNat

def asIndex (j : Json) : Decoded UInt32 :=
  (asInt 0 (UInt32.size - 1) j).map fun i => UInt32.ofNat i.toNat

/-- An integer will do where a double is wanted. -/
def asFloat : Json → Decoded Float
  | .int value => .ok (Binary64.ofInt value)
  | .float value => .ok value
  | j => .error j.refusal

def asOption (decode : Json → Decoded α) : Json → Decoded (Option α)
  | .null => .ok none
  | j => (decode j).map some

def asList (decode : Json → Decoded α) : Json → Decoded (List α)
  | .array items => items.mapM decode
  | j => .error j.refusal

/-- A choice among named alternatives. One without a payload is its name, or an
object with its name and null; one with a payload is an object of one member. -/
def asVariant (reading : Reading) (plain : List (String × α))
    (loaded : List (String × (Json → Decoded α))) (j : Json) : Decoded α :=
  let choose (name : String) (payload : Json) : Decoded α :=
    match plain.lookup name, loaded.lookup name with
    | some found, _ =>
      match payload with
      | .null => .ok found
      | other => .error other.refusal
    | none, some decode => decode payload
    | none, none => .error .mismatch
  match j, reading with
  | .string name, _ =>
    match plain.lookup name with
    | some found => .ok found
    | none => .error .mismatch
  | .object [(name, payload)], _ => choose name payload
  | .object ((name, payload) :: _), .streamed | .torn ((name, payload) :: _), _ => do
    let _ ← choose name payload
    .error .malformed
  | .object _, .buffered => .error .mismatch
  | _, .streamed => .error .malformed
  | other, .buffered => .error other.refusal

end Json

/-- A record's members: what has been found so far, and what comes of it. -/
structure Fields (α : Type) : Type 1 where
  Found : Type
  start : Found
  /-- Takes a member, unless none of the fields has that key. -/
  take : Found → String → Json → Option (Decoded Found)
  finish : Found → Decoded α

namespace Fields

variable {α β : Type}

/-- A member, and what its absence means. Giving it twice is a mismatch. -/
def field (key : String) (decode : Json → Decoded α) (absent : Decoded α) : Fields α where
  Found := Option α
  start := none
  take found name value :=
    if name = key then
      some (if found.isSome then .error .mismatch else (decode value).map some)
    else none
  finish
    | some found => .ok found
    | none => absent

def required (key : String) (decode : Json → Decoded α) : Fields α :=
  field key decode (.error .mismatch)

/-- A member that may be missing; an explicit null still has to decode. -/
def withDefault (key : String) (decode : Json → Decoded α) (default : α) : Fields α :=
  field key decode (.ok default)

/-- A member that may be missing or null. -/
def optional (key : String) (decode : Json → Decoded α) : Fields (Option α) :=
  withDefault key (Json.asOption decode) none

def pure (value : α) : Fields α where
  Found := Unit
  start := ()
  take _ _ _ := none
  finish _ := .ok value

/-- Both sets of fields, the first having the first pick. -/
def seq (f : Fields (α → β)) (x : Fields α) : Fields β where
  Found := f.Found × x.Found
  start := (f.start, x.start)
  take found name value :=
    match f.take found.1 name value with
    | some taken => some (taken.map (·, found.2))
    | none => (x.take found.2 name value).map fun taken => taken.map (found.1, ·)
  finish found := do
    let f ← f.finish found.1
    let x ← x.finish found.2
    return f x

instance : Applicative Fields where
  pure := Fields.pure
  seq f x := f.seq (x ())

def member (fields : Fields α) (found : fields.Found) (m : String × Json) : Decoded fields.Found :=
  match fields.take found m.1 m.2 with
  | some taken => taken
  | none => m.2.skip.map fun _ => found

def members (fields : Fields α) (members : List (String × Json)) : Decoded α := do
  let found ← members.foldlM fields.member fields.start
  fields.finish found

def decode (fields : Fields α) : Json → Decoded α
  | .object found => fields.members found
  | .torn found => do
    let _ ← found.foldlM fields.member fields.start
    .error .malformed
  | j => .error j.refusal

/-- Fields kept in the same object as others: every member not yet taken is
buffered, and the fields are looked for among those at the end. -/
def flattened (inner : Fields α) : Fields α where
  Found := List (String × Json)
  start := []
  take found name value := some (value.buffer.map fun _ => (name, value) :: found)
  finish found := inner.members found.reverse

end Fields
end Selectivity
