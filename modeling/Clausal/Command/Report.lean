import Clausal.Formula
import Clausal.Search.State
import Clausal.Text.Layout

namespace Clausal.Command

open Text

/-- What a solve is reported by: the time for reading and for solving in
    nanoseconds, and the memory in bytes, if it is known. -/
structure Measurements where
  parseTime : Nat
  solveTime : Nat
  memory : Option (Nat × Nat)

/-- The nanoseconds of a second. -/
def second : Nat := 1000000000

/-- The bytes of a mebibyte. -/
def mebibyte : Nat := 1048576

/-- A line with a label and a value. -/
def statLine (label value : String) : String :=
  "|  " ++ padRight 28 label ++ " " ++ padLeft 18 value ++ "  |\n"

/-- A line with a label, a count and how often it was reached in a second. -/
def rateLine (label : String) (count elapsed : Nat) : String :=
  let rate := padLeft 9 (fixedPoint 0 (count * second) elapsed)
  "|  " ++ padRight 20 label ++ " " ++ padLeft 12 (toString count) ++ " (" ++ rate ++ "/sec)  |\n"

/-- The line about the time a solve took. -/
def elapsedLine (elapsed : Nat) : String :=
  "Solved. Elapsed time: " ++ fixedPoint 3 elapsed 1000000 ++ "ms\n"

/-- The lines about memory. -/
def memoryLines : Option (Nat × Nat) → String
  | none => ""
  | some (used, resident) =>
    statLine "Memory usage (MiB)" (fixedPoint 2 used mebibyte)
      ++ statLine "Resident memory (MiB)" (fixedPoint 2 resident mebibyte)

/-- The table about a formula, its search and its verdict. -/
def statistics (t : Measurements) (f : Formula) (s : Statistics) (verdict : Verdict) : String :=
  "\n=======================[ Problem Statistics ]=========================\n"
    ++ statLine "Parse time (s)" (fixedPoint 3 t.parseTime second)
    ++ statLine "Variables" (toString f.numVars)
    ++ statLine "Clauses" (toString f.clauses.length)
    ++ statLine "Literals" (toString f.literals.length)
    ++ statLine "Fixed by preprocessing" (toString s.fixed)
    ++ "========================[ Search Statistics ]========================\n"
    ++ rateLine "Decisions" s.decisions t.solveTime
    ++ rateLine "Propagations" s.propagations t.solveTime
    ++ rateLine "Conflicts" s.conflicts t.solveTime
    ++ rateLine "Backtracks" s.backtracks t.solveTime
    ++ memoryLines t.memory
    ++ statLine "CPU time (s)" (fixedPoint 3 t.solveTime second)
    ++ "=====================================================================\n"
    ++ "\n" ++ verdict.name ++ "\n"

/-- The line with the literals of a model. -/
def modelLine (model : List Literal) : String :=
  "Model: " ++ " ".intercalate (model.map Literal.render) ++ "\n"

end Clausal.Command
