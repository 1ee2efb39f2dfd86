import ConfigHeader.Check.Basic
import ConfigHeader.Json.Reader
import ConfigHeader.Json.Writer

namespace ConfigHeader.Check

/-- The first truth value under any of the keys. -/
def flag (fields : List (String × Json)) (keys : List String) : Bool :=
  (keys.findSome? fun key => (fields.lookup key).bind Json.bool?).getD false

/-- The stored value of the fields of a check. Without a value, or with an empty one, the field
`has_value` tells whether the value is empty on purpose. -/
def valueOfFields (fields : List (String × Json)) : Option String :=
  let hasValue := (fields.lookup "has_value").bind Json.bool?
  match fields.lookup "value" with
  | none => none
  | some .null => if hasValue = some true then some "" else none
  | some (.string "") => if hasValue = some false then none else some ""
  | some value => some value.compactText

/-- The check with a name and the fields of an object, if they tell whether it succeeded. A name
for the definition or the marker implies the flag unless the flag is given. -/
def ofFields? (name : String) (fields : List (String × Json)) : Option Check := do
  let success ← (fields.lookup "success").bind Json.bool?
  let define := (fields.lookup "define").bind Json.string?
  let subst := (fields.lookup "subst").bind Json.string?
  return {
    name, define, subst, success
    value := valueOfFields fields
    isDefine := (define.isSome && (fields.lookup "is_define").isNone) ||
      flag fields ["is_define", "define_flag", "define"]
    isSubst := (subst.isSome && (fields.lookup "is_subst").isNone) ||
      flag fields ["is_subst", "subst_flag", "subst"]
    kind := (((fields.lookup "type").bind Json.string?).bind Kind.ofTag?).getD .define
    unquote := ((fields.lookup "unquote").bind Json.bool?).getD false }

def ofJson? (name : String) (object : Json) : Option Check :=
  object.fields?.bind (ofFields? name)

/-- The value as it stands in an object: decoded if it is JSON text, and as a text otherwise. -/
def valueJson : Option String → Json
  | none => .null
  | some "" => .string ""
  | some stored => (Json.ofText? stored).getD (.string stored)

def toJson (check : Check) : Json :=
  Json.ofFields <|
    [("value", valueJson check.value),
      ("success", .bool check.success),
      ("is_define", .bool check.isDefine),
      ("is_subst", .bool check.isSubst),
      ("type", .string check.kind.tag),
      ("unquote", .bool check.unquote)] ++
    check.define.toList.map (fun define => ("define", .string define)) ++
    check.subst.toList.map (fun subst => ("subst", .string subst))

end ConfigHeader.Check
