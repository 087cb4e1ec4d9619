import Clausal.Clause

namespace Clausal

/-- The three answers a solver can give about a formula. -/
inductive Verdict where
  | satisfiable
  | unsatisfiable
  | unknown
deriving DecidableEq, Repr

namespace Verdict

/-- The number that stands for a verdict in solution text. -/
def code : Verdict → Int
  | .satisfiable => 1
  | .unsatisfiable => 0
  | .unknown => -1

/-- The verdict a number stands for. -/
def ofCode? (code : Int) : Option Verdict :=
  if code = 1 then some .satisfiable
  else if code = 0 then some .unsatisfiable
  else if code = -1 then some .unknown
  else none

/-- The name of a verdict in reports. -/
def name : Verdict → String
  | .satisfiable => "SATISFIABLE"
  | .unsatisfiable => "UNSATISFIABLE"
  | .unknown => "UNKNOWN"

end Verdict

/-- What is known about a formula over `numVars` variables. Only a satisfiable
    formula comes with a model, a list of literals that are to be true. -/
inductive Solution where
  | satisfiable (numVars : Nat) (model : List Literal)
  | unsatisfiable (numVars : Nat)
  | unknown (numVars : Nat)
deriving DecidableEq, Repr

namespace Solution

/-- The satisfiable solution with one literal per variable. -/
def ofModel (model : List Literal) : Solution :=
  .satisfiable model.length model

/-- The solution with a given verdict and no literals. -/
def bare : Verdict → Nat → Solution
  | .satisfiable, numVars => .satisfiable numVars []
  | .unsatisfiable, numVars => .unsatisfiable numVars
  | .unknown, numVars => .unknown numVars

/-- The verdict of a solution. -/
def verdict : Solution → Verdict
  | .satisfiable _ _ => .satisfiable
  | .unsatisfiable _ => .unsatisfiable
  | .unknown _ => .unknown

/-- The number of variables a solution speaks about. -/
def numVars : Solution → Nat
  | .satisfiable numVars _ => numVars
  | .unsatisfiable numVars => numVars
  | .unknown numVars => numVars

/-- The model of a satisfiable solution. -/
def model? : Solution → Option (List Literal)
  | .satisfiable _ model => some model
  | _ => none

/-- The positive literals of the model, in order. -/
def positives (s : Solution) : List Literal :=
  (s.model?.getD []).filter Literal.polarity

/-- The solution as text: a status line, then one line per literal of the
    model. -/
def render (s : Solution) : String :=
  s!"s cnf {s.verdict.code} {s.numVars}\n"
    ++ String.join ((s.model?.getD []).map fun l => "v " ++ l.render ++ "\n")

end Solution

end Clausal
