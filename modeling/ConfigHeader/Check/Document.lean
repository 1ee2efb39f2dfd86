import ConfigHeader.Check.Json
import ConfigHeader.Text.Space

/-! Results documents: JSON objects from the names of checks to their results. A document that is
blank, or that is no object, holds no results. -/
namespace ConfigHeader.Check

/-- What is wrong with a results document. -/
inductive Defect where
  | notJson
  /-- The result of this name does not tell whether the check succeeded. -/
  | noSuccess (name : String)
  /-- A result was needed and the document holds none. -/
  | noResult
  | other (description : String)
deriving DecidableEq, Repr

def Defect.message : Defect → String
  | notJson => "invalid JSON: not a JSON text"
  | noSuccess name => s!"result `{name}` is missing a boolean `success` field"
  | noResult => "probe file holds no result"
  | other description => description

/-- The results of the fields of a document, or the first field that holds none. -/
def ofEntries (fields : List (String × Json)) : Except Defect (List Check) :=
  fields.mapM fun (name, value) =>
    match ofJson? name value with
    | some check => .ok check
    | none => .error (.noSuccess name)

def ofDocument (text : String) : Except Defect (List Check) :=
  if Space.isBlankText text then .ok []
  else
    match Json.ofText? text with
    | none => .error .notJson
    | some (.object fields) => ofEntries fields
    | some _ => .ok []

def toDocument (checks : List Check) : Json :=
  Json.ofFields (checks.map fun check => (check.name, check.toJson))

end ConfigHeader.Check
