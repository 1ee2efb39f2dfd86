import ConfigHeader.Catalog.Findings
import ConfigHeader.Check.Value
import ConfigHeader.Template.UndefDirective

/-! What a template asks of the findings. All results are reached under one set of keys, where a
definition hides a marker and a marker hides a cached result with the same key, and the metadata of
the package is defined even without a result. -/
namespace ConfigHeader.Template

/-- Names that are defined even without a result, in byte order. -/
def packageNames : List String :=
  ["PACKAGE_BUGREPORT", "PACKAGE_NAME", "PACKAGE_STRING", "PACKAGE_TARNAME", "PACKAGE_URL",
    "PACKAGE_VERSION"]

/-- The findings under their keys. -/
structure Lookup where
  checks : KeyMap Check
  defineValues : KeyMap String
  substValues : KeyMap String
  /-- The package names that no definition and no marker takes. -/
  pendingNames : List String

namespace Lookup

def keyed {role : Role} (catalog : Catalog role) : List (String × Check) :=
  catalog.checks.map fun check => (role.key check, check)

def values {role : Role} (catalog : Catalog role) : KeyMap String :=
  KeyMap.ofList (catalog.checks.map fun check => (role.key check, check.storedValue))

def ofFindings (findings : Findings) : Lookup :=
  let defineValues := values findings.define
  let substValues := values findings.subst
  { checks := KeyMap.ofList
      (keyed findings.cache ++ keyed findings.subst ++ keyed findings.define)
    defineValues, substValues
    pendingNames := packageNames.filter fun name =>
      !defineValues.contains name && !substValues.contains name }

def check? (lookup : Lookup) (key : String) : Option Check :=
  lookup.checks.find? key

end Lookup

/-- What becomes of the `#undef` line that a result controls. A failed check is defined only if
its kind allows it and it has a value; an empty definition gets a placeholder unless it is to stay
unquoted. -/
def Action.ofCheck (check : Check) : Action :=
  let defined :=
    if check.kind.valueSuffices then check.success || check.value.isSome
    else check.success && check.filledValue?.isSome
  if defined then
    .define ("#define " ++ check.definedName ++
      match check.filledValue? with
      | some value => " " ++ Check.defineText value
      | none => if check.unquote then " " else " /**/")
  else .comment

def Action.ofPackageName (name stored : String) : Action :=
  .define ("#define " ++ name ++ " " ++ if stored = "" then "\"\"" else Check.defineText stored)

def Lookup.undefActions (lookup : Lookup) : KeyMap Action :=
  KeyMap.ofList
    (lookup.defineValues.keys.filterMap (fun key =>
      (lookup.check? key).map fun check => (key, Action.ofCheck check)) ++
    lookup.pendingNames.map fun name =>
      (name, Action.ofPackageName name ((lookup.defineValues.find? name).getD "")))

/-- The texts of all markers. -/
def markerTexts (findings : Findings) (lookup : Lookup) : KeyMap String :=
  KeyMap.ofList (findings.subst.checks.map fun check =>
    (check.markerName, Check.substText ((lookup.substValues.find? check.markerName).getD "")))

/-- The actions that make comments of the lines of all definitions. -/
def commentActions (findings : Findings) : KeyMap Action :=
  KeyMap.ofList (findings.define.keys.map fun key => (key, .comment))

end ConfigHeader.Template
