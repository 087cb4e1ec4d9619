import Clausal.Fault

namespace Clausal.Sudoku

/-- One cell holding one digit. Rows and columns count from 0, digits from 1. -/
structure Cell where
  row : Nat
  col : Nat
  digit : Nat
deriving DecidableEq, Repr

namespace Cell

/-- The number of the variable that says that the cell holds the digit, in word
    arithmetic. -/
def variableId (c : Cell) (order : Nat) : Except Fault Nat := do
  let side ← Word.mul order order
  let area ← Word.mul side side
  Word.add (← Word.add (← Word.mul area c.row) (← Word.mul side c.col)) c.digit

/-- The cell and digit that a variable stands for, in word arithmetic. -/
def ofVariableId (order id : Nat) : Except Fault Cell := do
  let side ← Word.mul order order
  let area ← Word.mul side side
  let offset ← Word.sub id 1
  let row ← Word.div offset area
  let col ← Word.mod (← Word.div offset side) side
  return ⟨row, col, ← Word.add (← Word.mod offset side) 1⟩

end Cell

end Clausal.Sudoku
