import Clausal.Formula
import Clausal.Log
import Clausal.Sudoku.Cell
import Clausal.Sudoku.Puzzle

namespace Clausal.Sudoku

/-- Every two elements of a list, the earlier one first. -/
def pairs {α : Type} : List α → List (α × α)
  | [] => []
  | a :: rest => rest.map (fun b => (a, b)) ++ pairs rest

namespace Order

/-- The literal that says that a place holds a digit. -/
def holds (o : Order) (place : o.Place) (digit : Fin o.side) : Literal :=
  (o.variableAt place digit).literal true

/-- The literal that says that a place does not hold a digit. -/
def lacks (o : Order) (place : o.Place) (digit : Fin o.side) : Literal :=
  (o.variableAt place digit).literal false

/-- Whether a digit, given by its position in the list of digits, is the one a
    cell shows. -/
def shows (o : Order) (given : Nat) (digit : Fin o.side) : Bool := digit.val + 1 == given

/-- The clause that a place holds some digit. -/
def someDigit (o : Order) (place : o.Place) : Clause :=
  (List.finRange o.side).map (o.holds place)

/-- The clause that a place does not hold two digits. Where one of them is given
    only the other is excluded. -/
def notBothDigits (o : Order) (given : Nat) (place : o.Place) (digits : Fin o.side × Fin o.side) :
    Clause :=
  let (d, e) := digits
  if o.shows given d then [o.lacks place e]
  else if o.shows given e then [o.lacks place d]
  else [o.lacks place d, o.lacks place e]

/-- The clause that two places do not both hold a digit. Where one of them is
    given it only the other is excluded. -/
def notBothPlaces (o : Order) (a b : o.Place) (givenA givenB : Nat) (digit : Fin o.side) :
    Clause :=
  if o.shows givenA digit then [o.lacks b digit]
  else if o.shows givenB digit then [o.lacks a digit]
  else [o.lacks a digit, o.lacks b digit]

/-- The pairs of places that share a unit. -/
def peers (o : Order) : List (o.Place × o.Place) :=
  (pairs o.places).filter fun (a, b) => o.sharesUnit a b

end Order

namespace Puzzle

/-- The digit given at a place, 0 for none. -/
def givenAt (p : Puzzle) (place : p.order.Place) : Nat :=
  Board.digitAt p.board place.1 place.2

/-- The literal that a place holds a given digit, which may be larger than the
    side of the board. -/
def givenLiteral (p : Puzzle) (place : p.order.Place) (digit : Nat) :
    Except (Failure Error) Literal := do
  let id ← Cell.variableId ⟨place.1, place.2, digit⟩ p.order.n
  match Variable.ofNat? id with
  | some v => return v.literal true
  | none => throw (.error (.invalidOrder p.order.n))

/-- The clause that a place holds its given digit, or some digit if none is
    given. -/
def occupied (p : Puzzle) (place : p.order.Place) (given : Nat) : Except (Failure Error) Clause :=
  if given = 0 then .ok (p.order.someDigit place)
  else
    match p.givenLiteral place given with
    | .ok l => .ok [l]
    | .error failure => .error failure

/-- The clauses about a single place: it holds its given digit, or some digit if
    none is given, and never two. -/
def placeClauses (p : Puzzle) (place : p.order.Place) : Except (Failure Error) (List Clause) := do
  let given ← Board.get p.board place.1 place.2
  let first ← p.occupied place given
  return first :: (pairs (List.finRange p.side)).map (p.order.notBothDigits given place)

/-- The error of two places that share a unit and are given the same digit. -/
def clash? (p : Puzzle) (a b : p.order.Place) : Option Error :=
  let given := p.givenAt a
  if 1 ≤ given ∧ given ≤ p.side ∧ p.givenAt b = given then
    some (.inconsistentPuzzle a.1 a.2 b.1 b.2 given)
  else none

/-- The clauses about two places that share a unit. -/
def peerClauses (p : Puzzle) (a b : p.order.Place) : List Clause :=
  let givenA := p.givenAt a
  let givenB := p.givenAt b
  (List.finRange p.side).map (p.order.notBothPlaces a b givenA givenB)

/-- The clauses of a puzzle: those about every place, then those about every two
    places that share a unit, unless two of these are given the same digit. -/
def clauses (p : Puzzle) : Except (Failure Error) (List Clause) := do
  let single ← p.order.places.mapM p.placeClauses
  let peers := p.order.peers
  match peers.findSome? fun (a, b) => p.clash? a b with
  | some cause => throw (.error cause)
  | none => return single.flatten ++ peers.flatMap fun (a, b) => p.peerClauses a b

/-- The formula with the clauses of a puzzle. -/
def formulaOf (p : Puzzle) (clauses : List Clause) : Except (Failure Error) Formula :=
  match Formula.ofClauses p.numVars clauses with
  | .ok f => .ok f
  | .error cause => .error (.error (.structural cause))

/-- Encodes a puzzle as a formula. -/
def toFormula (p : Puzzle) : Except (Failure Error) Formula := do
  p.formulaOf (← p.clauses)

/-- Encodes a puzzle as a formula and reports on it. -/
def toFormulaLogged (p : Puzzle) (log : Log) : Except (Failure Error) Formula × Log :=
  match p.clauses with
  | .error failure => (.error failure, log)
  | .ok clauses =>
    (p.formulaOf clauses, log.emit (.puzzleEncoded p.order.n clauses.length p.numVars))

/-- Reporting does not change the formula. -/
theorem toFormulaLogged_fst (p : Puzzle) (log : Log) :
    (p.toFormulaLogged log).1 = p.toFormula := by
  unfold toFormulaLogged toFormula
  cases p.clauses <;> rfl

end Puzzle

end Clausal.Sudoku
