import Clausal.Sudoku.Puzzle
import Clausal.Text.Blank
import Clausal.Text.Layout
import Clausal.Text.Numeral
import Clausal.Text.Source

namespace Clausal.Sudoku

open Text

/-- Consecutive stretches of `size` elements, the last of which may be
    shorter. -/
def chunks {α : Type} (size : Nat) (elements : List α) : List (List α) :=
  (List.range ((elements.length + size - 1) / size)).map fun i =>
    (elements.drop (i * size)).take size

/-- Cuts a sequence into stretches of `size` elements, which must not be empty. -/
def cut {α : Type} (size : Nat) (elements : List α) : Except Fault (List (List α)) :=
  if size = 0 then .error .divisionByZero else .ok (chunks size elements)

namespace Puzzle

/-- Reads the digits of a line, which hyphens separate. -/
def readDigits (cells : List Char) : Except (Failure Error) (List Nat) :=
  (cells.splitOn '-').mapM fun token =>
    match Numeral.readWord (trim token) with
    | .ok digit => .ok digit
    | .error _ => .error (.error (.malformed (.badCell (String.ofList token))))

/-- The puzzle of a given order with the digits of its cells, row by row. -/
def ofDigits (n : Nat) (digits : List Nat) : Except (Failure Error) Puzzle := do
  let side := n * n
  let area ← Word.mul side side
  if digits.length ≠ area then
    throw (.error (.malformed (.cellCount area n digits.length)))
  ofBoard (← cut side digits)

/-- Reads a puzzle from a line with its order and its digits. -/
def ofLine (text : List Char) : Except (Failure Error) Puzzle := do
  let line := trim text
  match splitAtBlank? line with
  | none => throw (.error (.malformed (.missingCells (String.ofList line))))
  | some (order, cells) =>
    match Numeral.readWord order with
    | .error _ => throw (.error (.malformed (.badOrder (String.ofList order))))
    | .ok n =>
      let side := n * n
      if Word.bound ≤ side * side then throw (.error (.invalidOrder n))
      ofDigits n (← readDigits (trim cells))

/-- The puzzle as a line with its order and its digits. -/
def toLine (p : Puzzle) : String :=
  s!"{p.order.n} " ++ "-".intercalate (p.board.flatten.map toString)

/-- A row of a puzzle in which gaps set the boxes apart. -/
def rowText (p : Puzzle) (cells : List Nat) : String :=
  let width := (toString p.side).length
  "  ".intercalate ((chunks p.order.n cells).map fun group =>
    " ".intercalate (group.map fun digit => padLeft width (toString digit)))

/-- The puzzle as a grid in which gaps set the boxes apart. -/
def render (p : Puzzle) : String :=
  String.join (p.board.zipIdx.map fun (cells, row) =>
    (if 0 < row && row % p.order.n == 0 then "\n" else "") ++ p.rowText cells ++ "\n")

/-- Reads the puzzle of one line, if there is one: blank lines and lines that
    start with a number sign hold none. -/
def ofSourceLine (entry : Except FileError (List Char)) :
    Except (Failure Error) (Option Puzzle) :=
  match entry with
  | .error cause => .error (.error (.file cause))
  | .ok line =>
    match trim line with
    | [] => .ok none
    | '#' :: _ => .ok none
    | text => do return some (← ofLine text)

/-- Reads the puzzles of a text, one per line. -/
def readAll (source : Source) : Except (Failure Error) (List Puzzle) := do
  return (← source.mapM ofSourceLine).filterMap id

end Puzzle

end Clausal.Sudoku
