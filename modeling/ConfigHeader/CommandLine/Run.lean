import ConfigHeader.CommandLine.ArgumentsFile
import ConfigHeader.CommandLine.Command

/-! Runs of the program. A run is a function of the words of the command line and of a tree of
files; it gives the tree that it leaves, what it says and how it ends. -/
namespace ConfigHeader.CommandLine

def programName : String := "autohdr"

def versionText : String := programName ++ " 0.1.0\n"

def helpText : String :=
  String.join <| [
    "Generate config headers from recorded check results\n",
    "\n",
    "Usage: autohdr [OPTIONS] <COMMAND>\n",
    "\n",
    "Commands:\n",
    "  resolve      Render a header or substituted file from a template\n",
    "  restrict     Pick the spelling of the `restrict` keyword from probe results\n",
    "  wrap         Copy sources, disabling those whose result is not truthy\n",
    "  completions  Generate shell completions\n",
    "  help         Print this message or the help of the given subcommand(s)\n",
    "\n",
    "Options:\n",
    "  -v, --verbose   Enable verbose output\n",
    "      --no-color  Disable colored output\n",
    "  -h, --help      Print help\n",
    "  -V, --version   Print version\n"]

/-- The line that makes a shell complete the names of the commands. -/
def completionText (shell : Shell) : String :=
  let names := " ".intercalate commandNames
  match shell with
  | .bash => "complete -W \"" ++ names ++ "\" " ++ programName ++ "\n"
  | .zsh => "compctl -k \"(" ++ names ++ ")\" " ++ programName ++ "\n"
  | .fish => "complete -c " ++ programName ++ " -f -a \"" ++ names ++ "\"\n"
  | .elvish =>
    "set edit:completion:arg-completer[" ++ programName ++ "] = \x7b|@words| put " ++ names ++
      " \x7d\n"
  | .powershell =>
    "Register-ArgumentCompleter -Native -CommandName " ++ programName ++
      " -ScriptBlock \x7b -split \"" ++ names ++ "\" \x7d\n"

/-- How a run ends. -/
inductive Ending where
  | done
  | printed (text : String)
  | failed (fault : Fault)
  | misused
deriving DecidableEq, Repr

def Ending.code : Ending → Nat
  | done | printed _ => 0
  | failed _ => 1
  | misused => 2

inductive Threshold where
  | silent
  | warnings
  | everything
deriving DecidableEq, Repr

def Threshold.shows : Threshold → Notice → Bool
  | silent, _ => false
  | warnings, notice => notice.level == .warning
  | everything, _ => true

def Threshold.ofLevel? (name : String) : Option Threshold :=
  match name with
  | "off" | "error" => some silent
  | "warn" => some warnings
  | "info" | "debug" | "trace" => some everything
  | _ => none

/-- The threshold that a setting asks for. It names a level for all programs or for this one, and
where it speaks of others only, this one is silent. Warnings are shown without a setting, and
where the level for this program is none. -/
def Threshold.ofSetting : Option String → Threshold
  | none => warnings
  | some text =>
    match cutAt? '=' text.toList with
    | none => (ofLevel? text).getD silent
    | some (program, level) =>
      if String.ofList program = programName then (ofLevel? (String.ofList level)).getD warnings
      else silent

structure Outcome where
  ending : Ending
  notices : List Notice
  tree : FileTree

def headerOf (manifest : Option Path) (given : Manifest) (tree : FileTree) :
    Except Fault Header := do
  let loaded ← match manifest with
    | some path => Manifest.load tree path
    | none => .ok {}
  (Header.ofManifest (loaded.merge given)).mapError Fault.invalidArguments

def outcomeOf {α : Type} (action : FileAction Fault α) (notices : List Notice) (tree : FileTree) :
    Outcome :=
  match action.run tree with
  | (.ok _, tree) => ⟨.done, notices, tree⟩
  | (.error fault, tree) => ⟨.failed fault, notices, tree⟩

def Command.run (command : Command) (tree : FileTree) : Outcome :=
  match command with
  | .resolve manifest given =>
    match headerOf manifest given tree with
    | .error fault => ⟨.failed fault, [], tree⟩
    | .ok header => outcomeOf header.write (header.notices tree) tree
  | .restrict probes output =>
    outcomeOf (KeywordSpelling.write probes output) (KeywordSpelling.notices probes tree) tree
  | .wrap results sources => outcomeOf (Guard.write results sources) [] tree
  | .completions shell => ⟨.printed (completionText shell), [], tree⟩

def Stop.ending : Stop → Ending
  | help => .printed helpText
  | version => .printed versionText
  | misuse => .misused

/-- The paths of files that a command may read or write, as far as the tree tells them: those in a
manifest are known once the tree holds it. -/
def Command.paths (command : Command) (tree : FileTree) : List Path :=
  match command with
  | .resolve manifest given =>
    manifest.toList ++
      match headerOf manifest given tree with
      | .error _ => []
      | .ok header => header.paths
  | .restrict probes output => [probes.native, probes.enclosed, probes.leading, output]
  | .wrap results sources =>
    results ++ sources.flatMap fun source => [source.input, source.output]
  | .completions _ => []

/-- What the words behind the name of the program ask for, or how the run ends without it. -/
def requestOf (words : List String) (tree : FileTree) : Except Ending Request :=
  match expandArguments tree (programName :: words) with
  | .error misuse => .error (.failed (.invalidArguments misuse))
  | .ok words => (readRequest words.tail).mapError Stop.ending

/-- Does what is asked for. The setting tells which notices are shown unless the words ask for
more. -/
def Request.run (request : Request) (setting : Option String) (tree : FileTree) : Outcome :=
  let threshold := if request.verbose then .everything else Threshold.ofSetting setting
  let outcome := request.command.run tree
  { outcome with notices := outcome.notices.filter threshold.shows }

def run (setting : Option String) (words : List String) (tree : FileTree) : Outcome :=
  match requestOf words tree with
  | .error ending => ⟨ending, [], tree⟩
  | .ok request => request.run setting tree

end ConfigHeader.CommandLine
