import Clausal.Literal
import Clausal.Sudoku.Error

namespace Clausal.Sudoku

/-- The order `n` of a puzzle with `n²` rows, columns, boxes and digits. It is
    positive, and the `n⁶` variables of its puzzles can be numbered. -/
structure Order where
  n : Nat
  pos : 1 ≤ n
  fits : n * n * (n * n) * (n * n) ≤ 2147483647
deriving Repr

namespace Order

/-- Orders with the same number are the same. -/
@[ext] theorem ext {o p : Order} (h : o.n = p.n) : o = p := by
  cases o; cases p; simp_all

instance : DecidableEq Order := fun _ _ => decidable_of_iff _ ⟨Order.ext, congrArg Order.n⟩

/-- The order with a given number, if there is one. -/
def ofNat (n : Nat) : Except (Failure Error) Order :=
  if hpos : 1 ≤ n then
    match Word.mul (n * n) (n * n) with
    | .error reason => .error (.fault reason)
    | .ok area =>
      match Word.mul area (n * n) with
      | .error reason => .error (.fault reason)
      | .ok _ =>
        if hfits : n * n * (n * n) * (n * n) ≤ 2147483647 then .ok ⟨n, hpos, hfits⟩
        else .error (.error (.invalidOrder n))
  else .error (.error (.invalidOrder n))

/-- The number of rows, columns, boxes and digits. -/
def side (o : Order) : Nat := o.n * o.n

/-- The number of variables. -/
def numVars (o : Order) : Nat := o.side * o.side * o.side

/-- The position of a cell on the board. -/
abbrev Place (o : Order) := Fin o.side × Fin o.side

/-- All places, row by row. -/
def places (o : Order) : List o.Place :=
  (List.finRange o.side).flatMap fun row => (List.finRange o.side).map fun col => (row, col)

/-- The number of a place and a digit does not go beyond the number of variables. -/
theorem variable_le (o : Order) (place : o.Place) (digit : Fin o.side) :
    o.side * o.side * place.1 + o.side * place.2 + (digit + 1) ≤ o.numVars := by
  have hdigit : o.side * place.2 + (digit + 1) ≤ o.side * (place.2 + 1) := by
    have := digit.isLt
    rw [Nat.mul_succ]
    omega
  have hcol : o.side * (place.2 + 1) ≤ o.side * o.side := Nat.mul_le_mul_left _ place.2.isLt
  have hrow : o.side * o.side * (place.1 + 1) ≤ o.side * o.side * o.side :=
    Nat.mul_le_mul_left _ place.1.isLt
  rw [Nat.mul_succ] at hrow
  unfold numVars
  omega

/-- The variable that says that a place holds a digit, which is given by its
    position in the list of digits. -/
def variableAt (o : Order) (place : o.Place) (digit : Fin o.side) : Variable :=
  ⟨o.side * o.side * place.1 + o.side * place.2 + (digit + 1), by omega,
    Nat.le_trans (o.variable_le place digit) o.fits⟩

/-- Whether two places share a row, a column or a box. -/
def sharesUnit (o : Order) (a b : o.Place) : Bool :=
  a.1 == b.1 || a.2 == b.2 ||
    (a.1.val / o.n == b.1.val / o.n && a.2.val / o.n == b.2.val / o.n)

end Order

/-- The digits of a board row by row, 0 for a blank cell. -/
abbrev Board := List (List Nat)

namespace Board

/-- The board with `side` rows of `side` blank cells. -/
def blank (side : Nat) : Board := List.replicate side (List.replicate side 0)

/-- The digit of a cell. -/
def get (b : Board) (row col : Nat) : Except Fault Nat :=
  match b[row]? with
  | none => .error .outOfRange
  | some cells =>
    match cells[col]? with
    | none => .error .outOfRange
    | some digit => .ok digit

/-- The digit of a cell, 0 outside the board. -/
def digitAt (b : Board) (row col : Nat) : Nat := (b.getD row []).getD col 0

/-- The board with the digit of one cell replaced. -/
def put (b : Board) (row col digit : Nat) : Except Fault Board := do
  let _ ← b.get row col
  return b.modify row fun cells => cells.set col digit

/-- The cells that are not blank, row by row, each with its row, column and
    digit. -/
def filled (b : Board) : List (Nat × Nat × Nat) :=
  b.zipIdx.flatMap fun (cells, row) => cells.zipIdx.filterMap fun (digit, col) =>
    if digit = 0 then none else some (row, col, digit)

end Board

/-- A puzzle of a fixed order. Its board need not be well formed. -/
structure Puzzle where
  order : Order
  board : Board
deriving DecidableEq, Repr

namespace Puzzle

/-- The number of rows, columns, boxes and digits. -/
def side (p : Puzzle) : Nat := p.order.side

/-- The number of variables. -/
def numVars (p : Puzzle) : Nat := p.order.numVars

/-- The puzzle with a given board. The number of rows must be the square of an
    order, every row as long as there are rows, and no digit larger. -/
def ofBoard (b : Board) : Except (Failure Error) Puzzle := do
  let side := b.length
  let n := side.sqrt
  let square ← Word.mul n n
  if square ≠ side then throw (.error (.invalidOrder n))
  let order ← Order.ofNat n
  match b.zipIdx.find? fun (cells, _) => cells.length != side with
  | some (cells, row) => throw (.error (.malformed (.rowLength row cells.length side)))
  | none =>
    match (Board.filled b).find? fun (_, _, digit) => decide (side < digit) with
    | some (row, col, digit) => throw (.error (.digitOutOfRange row col digit side))
    | none => return ⟨order, b⟩

/-- The puzzle of a given order without digits. A cell takes 8 bytes, and a row 24 in
    the table of the rows. -/
def blank (n : Nat) : Except (Failure Error) Puzzle := do
  let side ← Word.mul n n
  Word.checkTable side 8
  Word.checkTable side 24
  let order ← Order.ofNat n
  return ⟨order, Board.blank side⟩

/-- The cells of the rows, columns and boxes: for each index the row, the column
    and the box with that index. -/
def units (o : Order) : List (List (Nat × Nat)) :=
  (List.range o.side).flatMap fun k =>
    [(List.range o.side).map fun col => (k, col),
      (List.range o.side).map fun row => (row, k),
      (List.range o.side).map fun i =>
        (k / o.n * o.n + i / o.n, k % o.n * o.n + i % o.n)]

/-- Whether the cells of a unit hold every digit once. -/
def isComplete (p : Puzzle) (unit : List (Nat × Nat)) : Except Fault Bool := do
  let digits ← unit.mapM fun (row, col) => Board.get p.board row col
  return digits.mergeSort (fun d e => decide (d ≤ e)) == List.range' 1 p.side

/-- Whether every row, column and box holds every digit once. The units are
    looked at in turn, up to the first that does not. -/
def isSolved (p : Puzzle) : Except Fault Bool :=
  (units p.order).allM (isComplete p)

end Puzzle

end Clausal.Sudoku
