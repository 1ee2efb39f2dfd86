import ConfigHeader.Catalog.Basic
import ConfigHeader.Check.Document
import ConfigHeader.Report
import ConfigHeader.FileTree.Basic

namespace ConfigHeader

inductive Misuse where
  | noTemplate
  | noOutput
  | noResults
  /-- The text that gives a guarded source does not have its three parts. -/
  | badSource (text : String)
  | noArgumentsPath
  | unreadableArguments (path : Path) (fault : FileFault)
  | noArguments (path : Path)
  | other (description : String)
deriving DecidableEq, Repr

def Misuse.message : Misuse → String
  | noTemplate => "--template is required"
  | noOutput => "--output is required"
  | noResults => "at least one --results file is required"
  | badSource text => s!"--src value must be of the form <in>=<DEFINE>=<out>, got: {text}"
  | noArgumentsPath => "action args file path cannot be empty after '@'"
  | unreadableArguments path fault =>
    s!"cannot open action args file {path.text}: {fault.message}"
  | noArguments path => s!"action args file {path.text} contains no arguments"
  | other description => description

/-- Why a run fails. -/
inductive Fault where
  | inputMissing (path : Path)
  | inputUnreadable (path : Path) (fault : FileFault)
  | malformedResults (path : Path) (defect : Check.Defect)
  | conflictingResults (conflict : Conflict)
  | inlineUnreadable (search : String) (path : Path) (fault : FileFault)
  | outputUnwritable (path : Path) (fault : FileFault)
  | invalidArguments (misuse : Misuse)
  | invalidManifest (path : Path) (description : String)
deriving DecidableEq, Repr

namespace Fault

def conflictMessage (conflict : Conflict) : String :=
  s!"duplicate {conflict.role.name} result `{conflict.key}` with conflicting values"

def message : Fault → String
  | inputMissing path => s!"input file does not exist: {path.text}"
  | inputUnreadable path _ => s!"failed to read input file: {path.text}"
  | malformedResults path defect =>
    s!"malformed check result in {path.text}: {defect.message}"
  | conflictingResults conflict => conflictMessage conflict
  | inlineUnreadable search path _ =>
    s!"failed to read inline file for `{search}`: {path.text}"
  | outputUnwritable path _ => s!"failed to write output file: {path.text}"
  | invalidArguments misuse => s!"invalid arguments: {misuse.message}"
  | invalidManifest path description => s!"failed to parse manifest {path.text}: {description}"

def code : Fault → String
  | inputMissing _ => "autohdr::input::missing"
  | inputUnreadable _ _ => "autohdr::input::unreadable"
  | malformedResults _ _ => "autohdr::results::malformed"
  | conflictingResults _ => "autohdr::results::conflict"
  | inlineUnreadable _ _ _ => "autohdr::template::inline"
  | outputUnwritable _ _ => "autohdr::output::unwritable"
  | invalidArguments _ => "autohdr::args"
  | invalidManifest _ _ => "autohdr::manifest"

def hint? : Fault → Option String
  | malformedResults _ _ =>
    some "every result must be an object with a boolean `success` field"
  | conflictingResults _ =>
    some "make the checks agree on the value, or drop one of the result files"
  | _ => none

def report : Fault → Report
  | inputMissing path =>
    { message := "input file does not exist", location := some path
      suggestions :=
        ["Make sure every --cache-result/--define-result/--subst-result path was " ++
          "produced by the checker"] }
  | inputUnreadable path fault =>
    { message := "failed to read input file", location := some path, context := [fault.message] }
  | malformedResults path defect =>
    { message := "malformed check result", location := some path, context := [defect.message]
      suggestions :=
        ["Each result must look like " ++
          "\x7b\"NAME\": \x7b\"success\": true, \"value\": ...\x7d\x7d"] }
  | conflictingResults conflict =>
    { message := conflictMessage conflict
      context :=
        [s!"First:  {conflict.first.message} ({conflict.firstSource.text})",
          s!"Second: {conflict.second.message} ({conflict.secondSource.text})"]
      suggestions := ["Remove the duplicate check or make both checks produce the same value"] }
  | inlineUnreadable search path fault =>
    { message := s!"failed to read inline file for `{search}`", location := some path
      context := [fault.message] }
  | outputUnwritable path fault =>
    { message := "failed to write output file", location := some path, context := [fault.message] }
  | invalidArguments misuse =>
    { message := misuse.message, suggestions := ["Run `autohdr help` for usage"] }
  | invalidManifest path description =>
    { message := "failed to parse manifest", location := some path, context := [description] }

end Fault

end ConfigHeader
