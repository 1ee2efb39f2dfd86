import ConfigHeader.CommandLine.Option
import ConfigHeader.Guard
import ConfigHeader.Header
import ConfigHeader.KeywordSpelling

namespace ConfigHeader.CommandLine

inductive Shell where
  | bash
  | elvish
  | fish
  | powershell
  | zsh
deriving DecidableEq, Repr

def Shell.name : Shell → String
  | bash => "bash"
  | elvish => "elvish"
  | fish => "fish"
  | powershell => "powershell"
  | zsh => "zsh"

def Shell.ofName? (text : String) : Option Shell :=
  [bash, elvish, fish, powershell, zsh].find? fun shell => shell.name == text

inductive Command where
  /-- Make a header. What is given is merged over the manifest. -/
  | resolve (manifest : Option Path) (given : Manifest)
  /-- Record the spelling of `restrict`. -/
  | restrict (probes : KeywordSpelling.Probes Path) (output : Path)
  | wrap (results : List Path) (sources : List GuardedSource)
  | completions (shell : Shell)

def commandNames : List String :=
  ["resolve", "restrict", "wrap", "completions", "help"]

def commonOptions : List OptionRule :=
  [{ name := "verbose", shape := .flag }, { name := "no-color", shape := .flag }]

/-- The rule of an option with a path, which must not be empty. -/
def pathOption (name : String) (repeatable : Bool) : OptionRule :=
  { name, shape := .word (· != ""), repeatable }

def frontRules : Rules :=
  { options := commonOptions, hasVersion := true }

def resolveRules : Rules :=
  { options :=
      [pathOption "manifest" false, pathOption "cache-result" true,
        pathOption "define-result" true, pathOption "subst-result" true,
        pathOption "template" false, pathOption "output" false,
        { name := "inline", shape := .pair, repeatable := true },
        { name := "subst", shape := .pair, repeatable := true },
        { name := "mode", shape := .word fun text => (Mode.ofName? text).isSome }] ++
      commonOptions }

def restrictRules : Rules :=
  { options :=
      [pathOption "restrict" false, pathOption "restrict__" false, pathOption "_restrict" false,
        pathOption "output" false] ++ commonOptions }

def wrapRules : Rules :=
  { options :=
      [pathOption "results" true,
        { name := "src", shape := .word fun text => (GuardedSource.ofText? text).isSome
          repeatable := true }] ++ commonOptions }

def completionsRules : Rules :=
  { options := commonOptions, operand := some fun text => (Shell.ofName? text).isSome }

def pathsOf (given : List Given) (name : String) : List Path :=
  (wordsOf given name).map Path.mk

def pathOf? (given : List Given) (name : String) : Option Path :=
  (pathsOf given name).head?

def resolveCommand (given : List Given) : Command :=
  .resolve (pathOf? given "manifest")
    { cacheResults := pathsOf given "cache-result"
      defineResults := pathsOf given "define-result"
      substResults := pathsOf given "subst-result"
      template := pathOf? given "template"
      output := pathOf? given "output"
      mode := (wordsOf given "mode").head?.bind Mode.ofName?
      inlines := KeyMap.ofList ((pairsOf given "inline").map fun pair => (pair.1, ⟨pair.2⟩))
      substitutions := KeyMap.ofList (pairsOf given "subst") }

def restrictCommand? (given : List Given) : Option Command := do
  let probes : KeywordSpelling.Probes Path :=
    { native := ← pathOf? given "restrict"
      enclosed := ← pathOf? given "restrict__"
      leading := ← pathOf? given "_restrict" }
  return .restrict probes (← pathOf? given "output")

/-- The command `wrap` with these options. It needs a results file. -/
def wrapCommand? (given : List Given) : Option Command :=
  match pathsOf given "results" with
  | [] => none
  | results => some (.wrap results ((wordsOf given "src").filterMap GuardedSource.ofText?))

def completionsCommand? (given : List Given) : Option Command :=
  ((wordsOf given "").head?.bind Shell.ofName?).map Command.completions

structure Request where
  verbose : Bool
  plain : Bool
  command : Command

def hasFlag (given : List Given) (name : String) : Bool :=
  given.any fun option => option.name == name

def readCommand (name : String) (words : List String) : Except Stop (Command × List Given) :=
  match name with
  | "resolve" => finish resolveRules fun given => some (resolveCommand given)
  | "restrict" => finish restrictRules restrictCommand?
  | "wrap" => finish wrapRules wrapCommand?
  | "completions" => finish completionsRules completionsCommand?
  | "help" =>
    match words with
    | [] => .error .help
    | [topic] => .error (if commandNames.contains topic then .help else .misuse)
    | _ => .error .misuse
  | _ => .error .misuse
where
  /-- The command made of the options that the rules read. -/
  finish (rules : Rules) (command? : List Given → Option Command) :
      Except Stop (Command × List Given) := do
    let given ← rules.read words
    match command? given with
    | some command => .ok (command, given)
    | none => .error .misuse

/-- What the words behind the name of the program ask for. The name of the command stands behind
the options of the front and not behind two dashes alone. -/
def readRequest (words : List String) : Except Stop Request := do
  let front ← frontRules.read (words.takeWhile isDashed)
  if (words.takeWhile isDashed).contains "--" then throw .misuse
  match words.dropWhile isDashed with
  | [] => .error .misuse
  | name :: rest =>
    let (command, given) ← readCommand name rest
    return {
      verbose := hasFlag (front ++ given) "verbose"
      plain := hasFlag (front ++ given) "no-color"
      command }

end ConfigHeader.CommandLine
