import Clausal.Command.Job
import Clausal.Text.Numeral

namespace Clausal.Command

open Text

/-- A job together with the option that belongs to all commands. -/
structure Invocation where
  debug : Bool
  job : Job
deriving DecidableEq, Repr

/-- Why the arguments do not start a command. -/
inductive UsageError where
  /-- There are no arguments. -/
  | noArguments
  /-- Help is asked for. -/
  | helpRequested
  /-- The version is asked for. -/
  | versionRequested
  /-- There are options but no command. -/
  | missingCommand
  /-- The command does not exist. -/
  | unknownCommand
  /-- An option does not exist, or a word has no meaning where it stands. -/
  | unknownArgument
  /-- An option is given twice. -/
  | repeatedArgument
  /-- A flag is given a value. -/
  | unexpectedValue
  /-- An option lacks its value, or the value is none of those that exist. -/
  | invalidValue
  /-- A value is not a number in range. -/
  | malformedValue
  /-- An argument that must be given is not. -/
  | missingArgument
deriving DecidableEq, Repr

/-- What the value of an argument has to be. -/
inductive ValueKind where
  | path
  | seconds
  | shell
deriving DecidableEq, Repr

/-- What an option does. -/
inductive Effect where
  | flag
  | value (kind : ValueKind)
  | help
  | version
deriving DecidableEq, Repr

/-- An option with its long and its short name. -/
structure OptionRule where
  long : String
  short : Option Char
  effect : Effect
deriving DecidableEq, Repr

/-- The options of a command, and the argument it takes without an option
    name. -/
structure Grammar where
  options : List OptionRule
  positional : Option (String × ValueKind)
deriving DecidableEq, Repr

/-- The shell with a given name. -/
def Shell.ofName? : String → Option Shell
  | "bash" => some .bash
  | "elvish" => some .elvish
  | "fish" => some .fish
  | "powershell" => some .powershell
  | "zsh" => some .zsh
  | _ => none

/-- Rejects a value that is not of its kind. -/
def ValueKind.check (kind : ValueKind) (value : String) : Except UsageError Unit :=
  match kind with
  | .path => if value.isEmpty then .error .invalidValue else .ok ()
  | .seconds =>
    match Numeral.readWord value.toList with
    | .ok _ => .ok ()
    | .error _ => .error .malformedValue
  | .shell => if (Shell.ofName? value).isSome then .ok () else .error .invalidValue

/-- An argument whose value has been announced or read but not yet accepted. -/
structure Pending where
  name : String
  kind : ValueKind
  value : Option String

/-- What has been read of an argument list: the accepted arguments with their
    values, the one that is still open, how many words were taken without an
    option name, and whether option names are still recognised. -/
structure Progress where
  accepted : List (String × String)
  pending : Option Pending
  words : Nat
  namesEnded : Bool

namespace Progress

/-- Nothing has been read. -/
def start : Progress := ⟨[], none, 0, false⟩

/-- Whether an argument has been accepted. -/
def has (p : Progress) (name : String) : Bool := p.accepted.any (·.1 == name)

/-- The value of an accepted argument. -/
def value? (p : Progress) (name : String) : Option String :=
  (p.accepted.find? (·.1 == name)).map (·.2)

/-- Accepts an argument that has not been accepted before. -/
def accept (p : Progress) (name value : String) : Except UsageError Progress :=
  if p.has name then .error .repeatedArgument
  else .ok { p with accepted := (name, value) :: p.accepted }

/-- Accepts the open argument: it must have a value, be new, and its value be of
    the right kind. -/
def settle (p : Progress) : Except UsageError Progress :=
  match p.pending with
  | none => .ok p
  | some ⟨_, _, none⟩ => .error .invalidValue
  | some ⟨name, kind, some value⟩ => do
    let next ← accept { p with pending := none } name value
    kind.check value
    return next

/-- Meets an option that stands without a value of its own. -/
def meet (p : Progress) (rule : OptionRule) : Except UsageError Progress := do
  let p ← p.settle
  match rule.effect with
  | .flag => p.accept rule.long ""
  | .value kind => return { p with pending := some ⟨rule.long, kind, none⟩ }
  | .help => throw .helpRequested
  | .version => throw .versionRequested

/-- Meets an option with a value attached to it. -/
def meetWithValue (p : Progress) (rule : OptionRule) (kind : ValueKind) (value : String) :
    Except UsageError Progress := do
  let p ← p.settle
  { p with pending := some ⟨rule.long, kind, some value⟩ }.settle

/-- Meets an option by its long name, behind which a value may be attached. -/
def meetLong (g : Grammar) (p : Progress) (text : List Char) : Except UsageError Progress :=
  let name := String.ofList (text.takeWhile (· != '='))
  match g.options.find? (·.long == name) with
  | none => .error .unknownArgument
  | some rule =>
    match text.dropWhile (· != '=') with
    | [] => p.meet rule
    | _ :: attached =>
      match rule.effect with
      | .value kind => p.meetWithValue rule kind (String.ofList attached)
      | _ => .error .unexpectedValue

/-- Meets options by their short names, which may stand together. The rest of
    the group behind an option with a value is that value. -/
def meetShort (g : Grammar) (p : Progress) : List Char → Except UsageError Progress
  | [] => .ok p
  | c :: rest =>
    match g.options.find? (·.short == some c) with
    | none => .error .unknownArgument
    | some rule =>
      match rule.effect, rest with
      | .value kind, '=' :: value => p.meetWithValue rule kind (String.ofList value)
      | .value kind, d :: value => p.meetWithValue rule kind (String.ofList (d :: value))
      | _, _ =>
        match p.meet rule with
        | .ok p => meetShort g p rest
        | .error cause => .error cause

/-- Meets a word that is no option: the value of the open option, or the argument
    without an option name. -/
def meetWord (g : Grammar) (p : Progress) (word : String) : Except UsageError Progress :=
  match p.pending, p.namesEnded with
  | some ⟨name, kind, none⟩, false => .ok { p with pending := some ⟨name, kind, some word⟩ }
  | _, _ =>
    match g.positional, p.words with
    | some (name, kind), 0 => do
      let p ← p.settle
      return { p with pending := some ⟨name, kind, some word⟩, words := 1 }
    | _, _ => .error .unknownArgument

/-- Meets one argument. -/
def meetArgument (g : Grammar) (p : Progress) (argument : String) : Except UsageError Progress :=
  if p.namesEnded then p.meetWord g argument
  else
    match argument.toList with
    | ['-', '-'] => .ok { p with namesEnded := true }
    | '-' :: '-' :: name => p.meetLong g name
    | '-' :: c :: names => p.meetShort g (c :: names)
    | _ => p.meetWord g argument

end Progress

/-- The option that belongs to all commands. -/
def debugRule : OptionRule := ⟨"debug", some 'd', .flag⟩

/-- The option that asks for help. -/
def helpRule : OptionRule := ⟨"help", some 'h', .help⟩

/-- The option that names a file or directory. -/
def pathRule : OptionRule := ⟨"path", none, .value .path⟩

/-- The options shared by the commands that solve. -/
def solveRules : List OptionRule :=
  [⟨"verify", some 'v', .flag⟩, ⟨"stats", some 's', .flag⟩,
   ⟨"print-solution", some 'p', .flag⟩, ⟨"timeout", some 't', .value .seconds⟩,
   ⟨"no-preprocess", none, .flag⟩]

/-- The grammar with given options besides those of all commands. -/
def grammar (options : List OptionRule) : Grammar := ⟨debugRule :: helpRule :: options, none⟩

/-- What stands in front of the command. -/
def programGrammar : Grammar := grammar [⟨"version", some 'V', .version⟩]

/-- The options for solving among the accepted arguments. -/
def solveOptions (p : Progress) : SolveOptions where
  verify := p.has "verify"
  stats := p.has "stats"
  printSolution := p.has "print-solution"
  timeout := ((p.value? "timeout").bind fun text =>
    (Numeral.readWord text.toList).toOption).getD 0
  noPreprocess := p.has "no-preprocess"

/-- The value of an argument that must be given. -/
def required (p : Progress) (name : String) : Except UsageError String :=
  match p.value? name with
  | some value => .ok value
  | none => .error .missingArgument

/-- The grammar of each command and how its arguments make up a job. -/
def commandRules : List (String × Grammar × (Progress → Except UsageError Job)) :=
  [("to-sat", grammar [pathRule], fun p => return .toSat (p.value? "path")),
   ("solve", grammar (pathRule :: solveRules), fun p =>
     return .solve (p.value? "path") (solveOptions p)),
   ("to-sudoku",
     grammar [⟨"puzzle", none, .value .path⟩, ⟨"solution", none, .value .path⟩], fun p =>
     return .toSudoku (← required p "puzzle") (p.value? "solution")),
   ("sudoku", grammar (pathRule :: ⟨"export-dimacs", some 'e', .flag⟩ :: solveRules), fun p =>
     return .sudoku (← required p "path") (p.has "export-dimacs") (solveOptions p)),
   ("dir", grammar (pathRule :: solveRules), fun p =>
     return .dir (← required p "path") (solveOptions p)),
   ("completions", { grammar [] with positional := some ("shell", .shell) }, fun p => do
     match Shell.ofName? (← required p "shell") with
     | some shell => return .completions shell
     | none => throw .invalidValue)]

/-- The names of the commands. -/
def commandNames : List String := commandRules.map (·.1)

/-- What asking for help on commands leads to: at most one, which must exist. -/
def helpOn : List String → UsageError
  | [] => .helpRequested
  | [name] => if name == "help" || commandNames.contains name then .helpRequested
      else .unknownCommand
  | _ => .unknownCommand

/-- Reads the command and the arguments behind it. -/
def readCommand (front : Progress) (name : String) (rest : List String) :
    Except UsageError Invocation :=
  if name == "help" then .error (helpOn rest)
  else
    match commandRules.find? (·.1 == name) with
    | none => .error .unknownCommand
    | some (_, g, build) => do
      let p ← rest.foldlM (Progress.meetArgument g) Progress.start
      let p ← p.settle
      return ⟨front.has "debug" || p.has "debug", ← build p⟩

/-- Reads the options in front of the command, then the command. -/
def readProgram (front : Progress) : List String → Except UsageError Invocation
  | [] => .error (if front.accepted.isEmpty then .noArguments else .missingCommand)
  | argument :: rest =>
    if front.namesEnded then
      .error (if argument == "help" || commandNames.contains argument then .unknownArgument
        else .unknownCommand)
    else if argument.startsWith "-" && argument != "-" then
      match front.meetArgument programGrammar argument with
      | .ok front => readProgram front rest
      | .error cause => .error cause
    else readCommand front argument rest

/-- Reads the arguments of the program. Only what runs the program depends on this; the
    jobs do not. -/
def parseArguments (arguments : List String) : Except UsageError Invocation :=
  readProgram Progress.start arguments

end Clausal.Command
