import ConfigHeader.Toml.Moment

/-! Documents of texts, moments, arrays and tables in the notation of TOML. A table remembers how it
came to be, for that decides where further fields may go: no key is set twice and no table is opened
twice. -/
namespace ConfigHeader

/-- How a table came to be. -/
inductive Toml.Origin where
  /-- Named as a parent in a header, which may still be opened by one of its own. -/
  | implied
  | header
  /-- Named in a dotted key, which other dotted keys may add to. -/
  | dotted
  /-- Written between braces, which is closed to all additions. -/
  | inline
deriving DecidableEq, Repr

inductive Toml where
  | string (value : String)
  | moment (value : Toml.Moment)
  | array (items : List Toml)
  | table (origin : Toml.Origin) (fields : List (String × Toml))

namespace Toml

/-- The key under which the text of a date or a time stands where fields are wanted. -/
def momentKey : String := "$__toml_private_datetime"

/-- The fields of a value. A date or a time has its text as the only one. -/
def fields? : Toml → Option (List (String × Toml))
  | .table _ fields => some fields
  | .moment value => some [(momentKey, .string value.text)]
  | _ => none

def replace (key : String) (value : Toml) (fields : List (String × Toml)) :
    List (String × Toml) :=
  fields.map fun field => if field.1 = key then (key, value) else field

/-- Fields with one more value, under the last of several keys, each of which names a table inside
the one before it. Only tables that come from dotted keys take it. -/
def insert? (value : Toml) (last : String) :
    List String → List (String × Toml) → Option (List (String × Toml))
  | [], fields =>
    match fields.lookup last with
    | none => some (fields ++ [(last, value)])
    | some _ => none
  | key :: keys, fields =>
    match fields.lookup key with
    | none =>
      (insert? value last keys []).map fun inner => fields ++ [(key, .table .dotted inner)]
    | some (.table .dotted inner) =>
      (insert? value last keys inner).map fun inner => replace key (.table .dotted inner) fields
    | some _ => none

def openTable? (last : String) :
    List String → List (String × Toml) → Option (List (String × Toml))
  | [], fields =>
    match fields.lookup last with
    | none => some (fields ++ [(last, .table .header [])])
    | some (.table .implied inner) => some (replace last (.table .header inner) fields)
    | some _ => none
  | key :: keys, fields =>
    match fields.lookup key with
    | none => (openTable? last keys []).map fun inner => fields ++ [(key, .table .implied inner)]
    | some (.table .inline _) => none
    | some (.table origin inner) =>
      (openTable? last keys inner).map fun inner => replace key (.table origin inner) fields
    | some _ => none

def modify? (change : List (String × Toml) → Option (List (String × Toml))) :
    List String → List (String × Toml) → Option (List (String × Toml))
  | [], fields => change fields
  | key :: keys, fields =>
    match fields.lookup key with
    | some (.table origin inner) =>
      (modify? change keys inner).map fun inner => replace key (.table origin inner) fields
    | _ => none

end Toml

end ConfigHeader
