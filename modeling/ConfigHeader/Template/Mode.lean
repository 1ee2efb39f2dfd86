namespace ConfigHeader

/-- Which passes a template goes through. -/
inductive Mode where
  | defines
  | subst
  | all
deriving DecidableEq, Repr

namespace Mode

def name : Mode → String
  | defines => "defines"
  | subst => "subst"
  | all => "all"

def ofName? (text : String) : Option Mode :=
  [defines, subst, all].find? fun mode => mode.name == text

def invalidMessage (text : String) : String :=
  s!"invalid mode '{text}', valid values: defines, subst, all"

def definesNames : Mode → Bool
  | defines | all => true
  | subst => false

def fillsMarkers : Mode → Bool
  | subst | all => true
  | defines => false

end Mode

end ConfigHeader
