import Selectivity.Json

/-! JSON text of a value. The caller chooses how doubles are spelled. -/

namespace Selectivity.Json.Writer

def hexDigits (n width : Nat) : String :=
  let digits := Nat.toDigits 16 n
  String.ofList (List.replicate (width - digits.length) '0' ++ digits)

def escape (c : Char) : String :=
  if c == '"' then "\\\""
  else if c == '\\' then "\\\\"
  else if c == '\n' then "\\n"
  else if c == '\r' then "\\r"
  else if c == '\t' then "\\t"
  else if c.toNat < 0x20 then "\\u" ++ hexDigits c.toNat 4
  else String.singleton c

def quote (text : String) : String :=
  text.foldl (fun done c => done ++ escape c) "\"" ++ "\""

variable (float : Float → String)

mutual
def write : Json → String
  | .null => "null"
  | .bool value => if value then "true" else "false"
  | .int value => toString value
  | .float value => float value
  | .string value => quote value
  | .array items => "[" ++ writeItems items ++ "]"
  | .object members | .torn members => "\x7b" ++ writeMembers members ++ "\x7d"
  | .unusable _ | .fault => "null"

def writeItems : List Json → String
  | [] => ""
  | [item] => write item
  | item :: rest => write item ++ "," ++ writeItems rest

def writeMembers : List (String × Json) → String
  | [] => ""
  | [(key, value)] => quote key ++ ":" ++ write value
  | (key, value) :: rest => quote key ++ ":" ++ write value ++ "," ++ writeMembers rest
end

end Selectivity.Json.Writer
