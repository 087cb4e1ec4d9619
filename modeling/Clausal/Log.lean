import Clausal.Solution

namespace Clausal

/-- Severity of a log record, most severe first. -/
inductive Level where
  | warn
  | info
  | debug
  | trace
deriving DecidableEq, Repr

namespace Level

/-- Position in the order of decreasing severity. -/
def rank : Level → Nat
  | .warn => 0
  | .info => 1
  | .debug => 2
  | .trace => 3

/-- The name of a level in log records. -/
def name : Level → String
  | .warn => "WARN"
  | .info => "INFO"
  | .debug => "DEBUG"
  | .trace => "TRACE"

end Level

/-- What the readers, the solver and the commands report about their work. -/
inductive Event where
  | clauseCountDiffers (declared found : Nat)
  | formulaRead (numVars clauses : Nat)
  | solveStarted (clauses numVars : Nat)
  | unitContradiction (l : Literal)
  | reductionContradiction
  | reductionFinished (clauses fixed : Nat)
  | falseBeforeSearch
  | watching (clauses codes : Nat)
  | decision (l : Literal) (position : Nat)
  | implication (clause : Nat) (l : Literal)
  | decisionConflict (l : Literal) (clause : Nat)
  | interrupted (position total : Nat)
  | solveFinished (verdict : Verdict) (decisions conflicts : Nat)
  | puzzleEncoded (order clauses numVars : Nat)
  | solvingInput (label : String)
  | modelVerified (label : String) (verdict : Verdict)
  | fileSkipped (path : String)
deriving DecidableEq, Repr

namespace Event

/-- The severity of an event. -/
def level : Event → Level
  | .clauseCountDiffers .. => .warn
  | .solveStarted .. | .reductionContradiction | .falseBeforeSearch | .interrupted ..
  | .solveFinished .. | .modelVerified .. => .info
  | .formulaRead .. | .unitContradiction .. | .reductionFinished .. | .watching ..
  | .puzzleEncoded .. | .solvingInput .. | .fileSkipped .. => .debug
  | .decision .. | .implication .. | .decisionConflict .. => .trace

/-- The sentence recorded for an event. -/
def message : Event → String
  | .clauseCountDiffers declared found =>
    s!"problem line declares {declared} clauses but {found} were read"
  | .formulaRead numVars clauses =>
    s!"parsed DIMACS formula: {numVars} variables, {clauses} clauses"
  | .solveStarted clauses numVars => s!"solving {clauses} clauses over {numVars} variables"
  | .unitContradiction l => s!"unit clause {l.render} contradicts an earlier unit"
  | .reductionContradiction => "preprocessing derived a contradiction"
  | .reductionFinished clauses fixed =>
    s!"{clauses} clauses remain, {fixed} variables fixed before search"
  | .falseBeforeSearch => "a clause is false before search"
  | .watching clauses codes => s!"watching {clauses} clauses over {codes} literal codes"
  | .decision l position => s!"decide {l.render} at position {position}"
  | .implication clause l => s!"clause {clause} implies {l.render}"
  | .decisionConflict l clause => s!"{l.render} falsifies clause {clause}"
  | .interrupted position total => s!"search interrupted at position {position} of {total}"
  | .solveFinished verdict decisions conflicts =>
    s!"{verdict.name} after {decisions} decisions, {conflicts} conflicts"
  | .puzzleEncoded order clauses numVars =>
    s!"encoded order {order} sudoku as {clauses} clauses over {numVars} variables"
  | .solvingInput label => s!"solving {label}"
  | .modelVerified label verdict => s!"verified {label}: {verdict.name}"
  | .fileSkipped path => s!"skipping {path}"

/-- The record of an event: its level, then its sentence. -/
def render (e : Event) : String := e.level.name ++ " " ++ e.message

end Event

/-- A log keeps the events that are at least as severe as its threshold, latest
    first. Without a threshold it keeps none. -/
structure Log where
  threshold : Option Level
  records : List Event
deriving DecidableEq, Repr

namespace Log

/-- The empty log with a given threshold. -/
def empty (threshold : Option Level) : Log := ⟨threshold, []⟩

/-- Whether events of a level are kept. -/
def admits (log : Log) (level : Level) : Bool :=
  log.threshold.any fun threshold => decide (level.rank ≤ threshold.rank)

/-- Adds an event. -/
def emit (log : Log) (e : Event) : Log :=
  if log.admits e.level then { log with records := e :: log.records } else log

/-- Adds several events, one after the other. -/
def emitAll (log : Log) (events : List Event) : Log := events.foldl emit log

/-- The kept events, earliest first. -/
def events (log : Log) : List Event := log.records.reverse

end Log

end Clausal
