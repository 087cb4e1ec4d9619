import Clausal.Formula
import Clausal.Log
import Clausal.Text.Blank
import Clausal.Text.Numeral
import Clausal.Text.Source

namespace Clausal.Dimacs

open Text

/-- What can be wrong with the text of a formula. -/
inductive Defect where
  | duplicateProblemLine
  | clauseBeforeProblemLine
  | missingProblemLine
  | badLiteral (token : String) (cause : NumeralError)
  | fieldCount (found : Nat)
  | malformedProblemLine (line : String)
  | unsupportedFormat (format : String)
  | badVariableCount (token : String) (cause : NumeralError)
  | variableCountExceeded (count : Nat)
  | badClauseCount (token : String) (cause : NumeralError)
deriving DecidableEq, Repr

namespace Defect

/-- The phrase shown for a defect. -/
def message : Defect → String
  | .duplicateProblemLine => "duplicate problem line"
  | .clauseBeforeProblemLine => "clause data before the problem line"
  | .missingProblemLine => "missing problem line `p cnf <vars> <clauses>`"
  | .badLiteral token cause => s!"failed to parse literal '{token}': {cause.message}"
  | .fieldCount found => s!"expected `p cnf <vars> <clauses>`, found {found} fields"
  | .malformedProblemLine line => s!"malformed problem line `{line}`"
  | .unsupportedFormat format => s!"unsupported format `{format}`"
  | .badVariableCount token cause => s!"bad variable count `{token}`: {cause.message}"
  | .variableCountExceeded count => s!"variable count {count} exceeds {Variable.maxId}"
  | .badClauseCount token cause => s!"bad clause count `{token}`: {cause.message}"

end Defect

/-- The failures of reading a formula. -/
abbrev Error := ReadError Defect

/-- The kinds of line, told apart by the first character that is not white
    space. -/
inductive LineKind where
  | blank
  | comment
  | ending
  | problem
  | data
deriving DecidableEq, Repr

/-- The kind of a line. -/
def LineKind.of (line : List Char) : LineKind :=
  match trimStart line with
  | [] => .blank
  | 'c' :: _ => .comment
  | '%' :: _ => .ending
  | 'p' :: _ => .problem
  | _ :: _ => .data

/-- The counts that the problem line declares. -/
structure Header where
  numVars : Nat
  numClauses : Nat
deriving DecidableEq, Repr

/-- Reads a problem line, which starts with its first field. -/
def readHeader (number : Nat) (line : List Char) : Except Error Header :=
  let reject (defect : Defect) : Except Error Header := .error (.malformed number defect)
  match fields line with
  | [p, format, vars, clauses] =>
    if p ≠ ['p'] then reject (.malformedProblemLine (String.ofList line))
    else if format ≠ ['c', 'n', 'f'] then reject (.unsupportedFormat (String.ofList format))
    else
      match Numeral.readWord vars with
      | .error cause => reject (.badVariableCount (String.ofList vars) cause)
      | .ok numVars =>
        if numVars > Variable.maxId then reject (.variableCountExceeded numVars)
        else
          match Numeral.readWord clauses with
          | .error cause => reject (.badClauseCount (String.ofList clauses) cause)
          | .ok numClauses => .ok ⟨numVars, numClauses⟩
  | found => reject (.fieldCount found.length)

/-- What has been read so far: the problem line, the finished clauses and the
    literals of the clause that is still open, both latest first. -/
structure Progress where
  header : Option Header
  clauses : List Clause
  pending : List Literal

namespace Progress

/-- Finishes the open clause, unless it has no literals. -/
def close (progress : Progress) : Progress :=
  if progress.pending.isEmpty then progress
  else { progress with clauses := progress.pending.reverse :: progress.clauses, pending := [] }

/-- Reads one number of a data line: 0 ends a clause, any other is a literal of
    one of the declared variables. -/
def readToken (number numVars : Nat) (progress : Progress) (token : List Char) :
    Except Error Progress :=
  match Numeral.readInt32 token with
  | .error cause => .error (.malformed number (.badLiteral (String.ofList token) cause))
  | .ok value =>
    if value = 0 then .ok progress.close
    else
      match Literal.ofInt value with
      | .error cause => .error (.structural cause)
      | .ok l =>
        if numVars < l.var.id then .error (.structural (.variableOutOfRange l.var.id numVars))
        else .ok { progress with pending := l :: progress.pending }

/-- Reads one line. -/
def readLine (progress : Progress) (entry : Except FileError (List Char) × Nat) :
    Except Error Progress :=
  match entry with
  | (.error cause, _) => .error (.file cause)
  | (.ok line, number) =>
    match LineKind.of line with
    | .problem =>
      if progress.header.isSome then .error (.malformed number .duplicateProblemLine)
      else do
        let header ← readHeader number (trimStart line)
        return { progress with header := some header }
    | .data =>
      match progress.header with
      | none => .error (.malformed number .clauseBeforeProblemLine)
      | some header => (fields line).foldlM (readToken number header.numVars) progress
    | .blank | .comment | .ending => .ok progress

end Progress

/-- Whether the data goes on at a line, which is so unless the end marker stands
    there. -/
def continues : Except FileError (List Char) → Bool
  | .ok line => LineKind.of line != .ending
  | .error _ => true

/-- Reads a formula. Its clauses are the literals between the zeros of all data
    lines, where an unfinished last clause counts and empty ones do not. -/
def parse (source : Source) : Except Error Formula := do
  let progress ← ((source.takeWhile continues).zipIdx 1).foldlM Progress.readLine ⟨none, [], []⟩
  match progress.header with
  | none => throw (.malformed 0 .missingProblemLine)
  | some header =>
    match Formula.ofClauses header.numVars progress.close.clauses.reverse with
    | .error cause => throw (.structural cause)
    | .ok f => return { f with declared := header.numClauses }

/-- What is reported about a formula that was read: a warning if the declared
    number of clauses differs from the number found, and the size. -/
def readEvents (f : Formula) : List Event :=
  (if f.clauses.length = f.declared then []
    else [.clauseCountDiffers f.declared f.clauses.length])
  ++ [.formulaRead f.numVars f.clauses.length]

/-- Reads a formula and reports on it. -/
def parseLogged (source : Source) (log : Log) : Except Error Formula × Log :=
  match parse source with
  | .ok f => (.ok f, log.emitAll (readEvents f))
  | .error cause => (.error cause, log)

end Clausal.Dimacs
