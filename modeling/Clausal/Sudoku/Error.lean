import Clausal.Error
import Clausal.Solution

namespace Clausal.Sudoku

/-- What can be wrong with the text or the shape of a puzzle. -/
inductive Defect where
  | rowLength (row found side : Nat)
  | missingCells (line : String)
  | badOrder (token : String)
  | badCell (token : String)
  | cellCount (expected order found : Nat)
deriving DecidableEq, Repr

namespace Defect

/-- The phrase shown for a defect. -/
def message : Defect → String
  | .rowLength row found side => s!"row {row} has {found} cells, expected {side}"
  | .missingCells line => s!"expected '<order> <cells>', got '{line}'"
  | .badOrder token => s!"invalid order '{token}'"
  | .badCell token => s!"invalid cell '{token}'"
  | .cellCount expected order found =>
    s!"expected {expected} cells for order {order}, got {found}"

end Defect

/-- The failures of building, encoding, solving and decoding a puzzle. -/
inductive Error where
  /-- The text or the shape of the board is malformed. -/
  | malformed (defect : Defect)
  /-- The order is 0, or its puzzles have too many variables. -/
  | invalidOrder (order : Nat)
  /-- A digit is larger than the side of the board. -/
  | digitOutOfRange (row col digit limit : Nat)
  /-- Two equal digits share a row, column or box. -/
  | inconsistentPuzzle (row col otherRow otherCol digit : Nat)
  /-- A model gives a cell a second digit. -/
  | inconsistentSolution (row col first second : Nat)
  /-- Only a satisfiable solution can be decoded. -/
  | notSatisfiable (verdict : Verdict)
  /-- The formula or the model breaks the data model. -/
  | structural (cause : StructuralError)
  /-- The puzzles could not be read. -/
  | file (cause : FileError)
deriving DecidableEq, Repr

namespace Error

/-- The sentence shown for an error. -/
def message : Error → String
  | .malformed defect => "malformed puzzle: " ++ defect.message
  | .invalidOrder order => s!"unsupported sudoku order {order}"
  | .digitOutOfRange row col digit limit =>
    s!"digit {digit} at row {row}, column {col} is outside 0..={limit}"
  | .inconsistentPuzzle row col otherRow otherCol digit =>
    s!"contradiction detected during encoding: digit {digit} appears at ({row}, {col}) and "
      ++ s!"({otherRow}, {otherCol})"
  | .inconsistentSolution row col first second =>
    s!"solution assigns both {first} and {second} to ({row}, {col})"
  | .notSatisfiable verdict => s!"cannot decode an {verdict.name} result"
  | .structural cause => cause.message
  | .file cause => cause.message

end Error

end Clausal.Sudoku
