import ConfigHeader.Path

namespace ConfigHeader

structure Report where
  message : String
  location : Option Path := none
  context : List String := []
  suggestions : List String := []
deriving DecidableEq, Repr

namespace Report

def label (color : Bool) (code word : String) : String :=
  if color then s!"\x1b[1;{code}m{word}\x1b[0m" else word

def lines (report : Report) (color : Bool) : List String :=
  [label color "31" "error" ++ ": " ++ report.message] ++
    report.location.toList.map (fun path => s!"  --> {path.text}") ++
    report.context.map (fun context => s!"  {context}") ++
    if report.suggestions.isEmpty then []
    else ["", label color "32" "help" ++ ": consider:"] ++
      report.suggestions.zipIdx.map fun (suggestion, index) => s!"  {index + 1}. {suggestion}"

/-- The text of a report, each line ended by a newline. -/
def render (report : Report) (color : Bool) : String :=
  String.join ((report.lines color).map (· ++ "\n"))

end Report

end ConfigHeader
