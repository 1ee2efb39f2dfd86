namespace ConfigHeader.CommandLine

/-- Why the reading of a command line ends before its last word. -/
inductive Stop where
  | help
  | version
  | misuse
deriving DecidableEq, Repr

inductive OptionShape where
  | flag
  /-- One word that passes a test. It may stand behind an equals sign, and it may begin with a
  dash only there. -/
  | word (accepts : String → Bool)
  /-- The next two words, whatever they are. -/
  | pair

structure OptionRule where
  name : String
  shape : OptionShape
  repeatable : Bool := false

structure Rules where
  options : List OptionRule
  hasVersion : Bool := false
  /-- The test of the one word that may stand by itself, if there may be one. -/
  operand : Option (String → Bool) := none

/-- An option as it was given. A word by itself has the empty name. -/
structure Given where
  name : String
  words : List String
deriving DecidableEq, Repr

/-- Whether a word is read as an option or as several flags: it begins with a dash and does not end
there. -/
def isDashed (word : String) : Bool :=
  match word.toList with
  | '-' :: _ :: _ => true
  | _ => false

def OptionRule.allows (rule : OptionRule) (seen : List Given) : Bool :=
  rule.repeatable || seen.all fun given => given.name != rule.name

/-- An option whose rule is known, with the word behind its equals sign, if there is one, and the
words after it. The number tells how many of those belong to it. -/
def readRuled (rule : OptionRule) (attached : Option String) (rest : List String) :
    Except Stop (Given × Nat) :=
  match rule.shape, attached, rest with
  | .flag, none, _ => .ok (⟨rule.name, []⟩, 0)
  | .word accepts, some word, _ =>
    if accepts word then .ok (⟨rule.name, [word]⟩, 0) else .error .misuse
  | .word accepts, none, word :: _ =>
    if !isDashed word && accepts word then .ok (⟨rule.name, [word]⟩, 1) else .error .misuse
  | .pair, none, first :: second :: _ => .ok (⟨rule.name, [first, second]⟩, 2)
  | _, _, _ => .error .misuse

def readLong (rules : Rules) (seen : List Given) (name : String) (attached : Option String)
    (rest : List String) : Except Stop (Given × Nat) :=
  match rules.options.find? fun rule => rule.name == name with
  | some rule =>
    match readRuled rule attached rest with
    | .error stop => .error stop
    | .ok given => if rule.allows seen then .ok given else .error .misuse
  | none =>
    if attached.isSome then .error .misuse
    else if name = "help" then .error .help
    else if name = "version" ∧ rules.hasVersion then .error .version
    else .error .misuse

def readShort (rules : Rules) (seen : List Given) : List Char → Except Stop (List Given)
  | [] => .ok seen
  | 'h' :: _ => .error .help
  | 'V' :: _ => .error (if rules.hasVersion then .version else .misuse)
  | 'v' :: letters => do
    let (given, _) ← readLong rules seen "verbose" none []
    readShort rules (given :: seen) letters
  | _ => .error .misuse

/-- The options of the words of one level, the last one first. -/
def readWords (rules : Rules) : (skipped : Nat) → (seen : List Given) → List String →
    Except Stop (List Given)
  | _, seen, [] => .ok seen
  | skipped + 1, seen, _ :: rest => readWords rules skipped seen rest
  | 0, seen, word :: rest =>
    match word.toList with
    | ['-', '-'] => rest.foldlM operand seen
    | '-' :: '-' :: letters => do
      let name := String.ofList (letters.takeWhile (· != '='))
      let attached :=
        match letters.dropWhile (· != '=') with
        | [] => none
        | _ :: value => some (String.ofList value)
      let (given, width) ← readLong rules seen name attached rest
      readWords rules width (given :: seen) rest
    | '-' :: letter :: letters => do
      readWords rules 0 (← readShort rules seen (letter :: letters)) rest
    | _ => do readWords rules 0 (← operand seen word) rest
where
  operand (seen : List Given) (word : String) : Except Stop (List Given) :=
    match rules.operand with
    | none => .error .misuse
    | some accepts =>
      if accepts word && seen.all fun given => given.name != "" then
        .ok (⟨"", [word]⟩ :: seen)
      else .error .misuse

def Rules.read (rules : Rules) (words : List String) : Except Stop (List Given) :=
  (readWords rules 0 [] words).map List.reverse

def wordsOf (given : List Given) (name : String) : List String :=
  given.flatMap fun option => if option.name = name then option.words else []

def pairsOf (given : List Given) (name : String) : List (String × String) :=
  given.filterMap fun option =>
    match option.words with
    | [first, second] => if option.name = name then some (first, second) else none
    | _ => none

end ConfigHeader.CommandLine
