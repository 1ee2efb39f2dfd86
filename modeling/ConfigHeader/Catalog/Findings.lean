import ConfigHeader.Fault

namespace ConfigHeader

/-- The catalog merged from a list of results files, in the order of the list. A file is read when
its turn comes, so of two faults the one in the earlier file counts. -/
def Catalog.merge (read : Path → Except Fault (List Check)) (role : Role) (paths : List Path) :
    Except Fault (Catalog role) :=
  paths.foldlM
    (fun catalog path => do
      (catalog.insertAll (← read path) path).mapError Fault.conflictingResults)
    ∅

structure Sources where
  cache : List Path := []
  define : List Path := []
  subst : List Path := []
deriving DecidableEq, Repr

structure Findings where
  cache : Catalog .cache := ∅
  define : Catalog .define := ∅
  subst : Catalog .subst := ∅

namespace Findings

def merge (read : Path → Except Fault (List Check)) (sources : Sources) :
    Except Fault Findings := do
  return {
    cache := ← Catalog.merge read .cache sources.cache
    define := ← Catalog.merge read .define sources.define
    subst := ← Catalog.merge read .subst sources.subst }

/-- One line for each definition, in the order of their keys, that tells whether its check
succeeded. -/
def checkLines (findings : Findings) : List String :=
  let verdicts := KeyMap.ofList (findings.define.checks.map fun check =>
    (check.definedName, if check.success then "yes" else "no"))
  verdicts.entries.map fun (key, verdict) => s!"checking {key}... {verdict}"

end Findings

end ConfigHeader
