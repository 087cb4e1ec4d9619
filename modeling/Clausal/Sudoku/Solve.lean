import Clausal.Solver
import Clausal.Sudoku.Encoding

namespace Clausal.Sudoku.Puzzle

/-- Writes the digit of a true variable into its cell, which must be blank or
    hold that digit already. -/
def placeDigit (o : Order) (b : Board) (l : Literal) : Except (Failure Error) Board := do
  if o.numVars < l.var.id then
    throw (.error (.structural (.variableOutOfRange l.var.id o.numVars)))
  let ⟨row, col, digit⟩ ← Cell.ofVariableId o.n l.var.id
  let current ← Board.get b row col
  if current = 0 then b.put row col digit
  else if current = digit then return b
  else throw (.error (.inconsistentSolution row col current digit))

/-- Fills the blank cells of a puzzle with the digits of the positive literals
    of a satisfiable solution. -/
def decode (p : Puzzle) (s : Solution) : Except (Failure Error) Puzzle :=
  match s.verdict with
  | .satisfiable => do
    return ⟨p.order, ← s.positives.foldlM (placeDigit p.order) p.board⟩
  | verdict => .error (.error (.notSatisfiable verdict))

/-- Encodes, solves and decodes a puzzle. -/
def solve (p : Puzzle) (options : Solver.Options) (interrupt : Solver.Interrupt) (log : Log) :
    Except (Failure Error) Puzzle × Log :=
  match p.toFormulaLogged log with
  | (.error failure, log) => (.error failure, log)
  | (.ok f, log) =>
    let outcome := Solver.solve options interrupt f log
    match outcome.result with
    | .error failure => (.error (failure.map .structural), outcome.log)
    | .ok solution => (p.decode solution, outcome.log)

end Clausal.Sudoku.Puzzle
