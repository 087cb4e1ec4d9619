import Clausal.Solution
import Clausal.Text.Blank
import Clausal.Text.Numeral
import Clausal.Text.Source

namespace Clausal.Solution

open Text

/-- What can be wrong with the text of a solution. -/
inductive Defect where
  | missingStatusLine
  | beforeStatusLine (token : String)
  | emptyBeforeStatusLine
  | statusLineShape
  | unsupportedFormat (format : String)
  | badStatus (token : String)
  | badVariableCount (token : String) (cause : NumeralError)
  | unexpectedToken (token : String) (values : Nat)
  | badLiteral (token : String) (cause : NumeralError)
  | valueLineShape
  | literalExceeds (l : Literal) (numVars : Nat)
  | valueCount (expected found : Nat)
deriving DecidableEq, Repr

namespace Defect

/-- The phrase shown for a defect. -/
def message : Defect → String
  | .missingStatusLine => "missing `s` status line"
  | .beforeStatusLine token => s!"expected a comment or the status line, found `{token}`"
  | .emptyBeforeStatusLine => "empty line before status line"
  | .statusLineShape => "expected `s cnf <sat> <n_vars>`"
  | .unsupportedFormat format => s!"unsupported format `{format}`"
  | .badStatus token => s!"bad status `{token}`, expected -1, 0 or 1"
  | .badVariableCount token cause => s!"bad variable count `{token}`: {cause.message}"
  | .unexpectedToken token values => s!"unexpected `{token}` after {values} value lines"
  | .badLiteral token cause => s!"bad literal `{token}`: {cause.message}"
  | .valueLineShape => "expected `v <literal>`"
  | .literalExceeds l numVars =>
    s!"literal {l.render} exceeds the declared {numVars} variables"
  | .valueCount expected found => s!"expected {expected} value lines, found {found}"

end Defect

/-- The failures of reading a solution. -/
abbrev Error := ReadError Defect

/-- Input lines with their numbers. -/
abbrev Numbered := List (Except FileError (List Char) × Nat)

/-- Reads the fields of a status line behind its first. -/
def readStatus (number : Nat) (rest : List (List Char)) : Except Error (Verdict × Nat) :=
  let reject (defect : Defect) : Except Error (Verdict × Nat) :=
    .error (.malformed number defect)
  match rest with
  | [format, status, vars] =>
    if format ≠ ['c', 'n', 'f'] then reject (.unsupportedFormat (String.ofList format))
    else
      match (Numeral.readInt32 status).toOption.bind Verdict.ofCode? with
      | none => reject (.badStatus (String.ofList status))
      | some verdict =>
        match Numeral.readWord vars with
        | .error cause => reject (.badVariableCount (String.ofList vars) cause)
        | .ok numVars => .ok (verdict, numVars)
  | _ => reject .statusLineShape

/-- Reads up to the status line, in front of which only comments may stand, and
    returns what it says together with the lines behind it. -/
def seekStatus : Numbered → Except Error ((Verdict × Nat) × Numbered)
  | [] => .error (.malformed 0 .missingStatusLine)
  | (.error cause, _) :: _ => .error (.file cause)
  | (.ok line, number) :: rest =>
    match fields line with
    | [] => .error (.malformed number .emptyBeforeStatusLine)
    | first :: others =>
      if first.head? = some 'c' then seekStatus rest
      else if first = ['s'] then do
        let status ← readStatus number others
        return (status, rest)
      else .error (.malformed number (.beforeStatusLine (String.ofList first)))

/-- Reads the fields of a value line behind its first. -/
def readValue (numVars number : Nat) (rest : List (List Char)) : Except Error Literal :=
  match rest with
  | [token] =>
    match Numeral.readInt32 token with
    | .error cause => .error (.malformed number (.badLiteral (String.ofList token) cause))
    | .ok value =>
      match Literal.ofInt value with
      | .error cause => .error (.structural cause)
      | .ok l =>
        if numVars < l.var.id then .error (.malformed number (.literalExceeds l numVars))
        else .ok l
  | _ => .error (.malformed number .valueLineShape)

/-- Reads a line behind the status line and adds its literal to the model. At
    most `numVars` lines hold a value; the others are blank or comments. -/
def readLine (numVars : Nat) (model : Array Literal)
    (entry : Except FileError (List Char) × Nat) : Except Error (Array Literal) :=
  match entry with
  | (.error cause, _) => .error (.file cause)
  | (.ok line, number) =>
    match fields line with
    | [] => .ok model
    | first :: others =>
      if first.head? = some 'c' then .ok model
      else if first = ['v'] ∧ model.size < numVars then do
        let l ← readValue numVars number others
        return model.push l
      else .error (.malformed number (.unexpectedToken (String.ofList first) model.size))

/-- Reads a solution. The text of a satisfiable one holds one value line per
    declared variable; what follows the status line of any other is ignored. -/
def parse (source : Source) : Except (Failure Error) Solution := do
  let ((verdict, numVars), rest) ← seekStatus (source.zipIdx 1)
  match verdict with
  | .unsatisfiable => return .unsatisfiable numVars
  | .unknown => return .unknown numVars
  | .satisfiable =>
    Word.checkTable numVars 4
    let model ← (rest.foldlM (readLine numVars) #[] : Except Error (Array Literal))
    if model.size ≠ numVars then
      throw (.error (.malformed 0 (.valueCount numVars model.size)))
    return .satisfiable numVars model.toList

end Clausal.Solution
