import ConfigHeader.KeyMap
import ConfigHeader.Numeric.Binary64

/-! JSON values. A number is an integer where a 64-bit word holds it and binary64 otherwise, and
the fields of an object are in the byte order of their keys. -/
namespace ConfigHeader

inductive Json.Number where
  /-- An integer that a signed or an unsigned 64-bit word holds. -/
  | integer (value : Int) (bounded : -Int.pow 2 63 ≤ value ∧ value < Int.pow 2 64)
  | binary (value : Binary64)
deriving DecidableEq, Repr

inductive Json where
  | null
  | bool (value : Bool)
  | number (value : Json.Number)
  | string (value : String)
  | array (items : List Json)
  /-- Values under keys; the keys increase. -/
  | object (fields : List (String × Json))

namespace Json

/-- The object with these fields, of which the last one counts where keys repeat. -/
def ofFields (fields : List (String × Json)) : Json :=
  .object (fields.foldl (fun sorted field => Fields.insert field.1 field.2 sorted) [])

def bool? : Json → Option Bool
  | .bool value => some value
  | _ => none

def string? : Json → Option String
  | .string value => some value
  | _ => none

def fields? : Json → Option (List (String × Json))
  | .object fields => some fields
  | _ => none

end Json

end ConfigHeader
