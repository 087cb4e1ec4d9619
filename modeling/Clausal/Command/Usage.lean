import Clausal.Command.Arguments

namespace Clausal.Command

/-- How an option is shown. -/
def OptionRule.render (rule : OptionRule) : String :=
  let short := match rule.short with
    | some c => s!"-{c}, "
    | none => ""
  let value := match rule.effect with
    | .value .path => " <PATH>"
    | .value .seconds => " <SECS>"
    | .value .shell => " <SHELL>"
    | .flag | .help | .version => ""
  short ++ "--" ++ rule.long ++ value

/-- How the arguments of a command are shown. -/
def Grammar.render (g : Grammar) : String :=
  let words := match g.positional with
    | some (name, _) => [s!"<{name}>"]
    | none => []
  " ".intercalate (words ++ g.options.map fun rule => "[" ++ rule.render ++ "]")

/-- The commands with their arguments. -/
def usage : String :=
  "Usage: clausal <command> [options]\n\nCommands:\n"
    ++ String.join (commandRules.map fun (name, g, _) => s!"  {name} {g.render}\n")

/-- The line that makes a shell complete the names of the commands. -/
def completionLine (shell : Shell) : String :=
  let names := " ".intercalate commandNames
  match shell with
  | .bash => s!"complete -W \"{names}\" clausal\n"
  | .zsh => s!"compdef '_arguments \"1: :({names})\"' clausal\n"
  | .fish => s!"complete -c clausal -f -a \"{names}\"\n"
  | .elvish =>
    "set edit:completion:arg-completer[clausal] = \x7b|@args| put " ++ names ++ " \x7d\n"
  | .powershell =>
    "Register-ArgumentCompleter -Native -CommandName clausal -ScriptBlock \x7b '"
      ++ names ++ "' -split ' ' \x7d\n"

namespace UsageError

/-- The sentence shown when the arguments do not start a command. -/
def message : UsageError → String
  | .noArguments | .missingCommand => "a command is required"
  | .helpRequested => "a DPLL solver for formulas and Sudoku puzzles"
  | .versionRequested => "clausal 0.1.0"
  | .unknownCommand => "there is no such command"
  | .unknownArgument => "there is no such argument"
  | .repeatedArgument => "an argument is given twice"
  | .unexpectedValue => "a flag takes no value"
  | .invalidValue => "a value is missing or none of those that exist"
  | .malformedValue => "a value is not a number in range"
  | .missingArgument => "an argument that must be given is not"

/-- Whether the arguments ask for nothing but information. -/
def isRequest : UsageError → Bool
  | .helpRequested | .versionRequested => true
  | _ => false

end UsageError

end Clausal.Command
