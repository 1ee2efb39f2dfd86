import ConfigHeader.Check.Kind

/-! Results of checks. A check has a name of its own, and it may name otherwise the definition and
the marker that it controls. Its value is kept as JSON text, so that a text and a number with the
same digits stay apart. -/
namespace ConfigHeader

structure Check.Verdict where
  success : Bool
  value : Option String
deriving DecidableEq, Repr

structure Check where
  name : String
  /-- The name of the definition, where it is not that of the check. -/
  define : Option String := none
  subst : Option String := none
  /-- The value as JSON text; the empty text stands for a value that is empty on purpose. -/
  value : Option String
  success : Bool
  isDefine : Bool := true
  isSubst : Bool := false
  kind : Check.Kind := .define
  /-- Whether an empty definition is written without a placeholder. -/
  unquote : Bool := false
deriving DecidableEq, Repr

namespace Check

def Verdict.message (verdict : Verdict) : String :=
  let value := verdict.value.getD ""
  s!"success={verdict.success}, value=\"{value}\""

def defining (check : Check) (define : String) : Check :=
  { check with define := some define, isDefine := true }

def filling (check : Check) (subst : String) : Check :=
  { check with subst := some subst, isSubst := true }

def definedName (check : Check) : String :=
  check.define.getD check.name

def markerName (check : Check) : String :=
  check.subst.getD check.name

def verdict (check : Check) : Verdict :=
  ⟨check.success, check.value⟩

def storedValue (check : Check) : String :=
  check.value.getD ""

def filledValue? (check : Check) : Option String :=
  check.value.filter (· ≠ "")

end Check

end ConfigHeader
