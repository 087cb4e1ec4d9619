import Clausal.Ascending
import Clausal.Literal

namespace Clausal

/-- A clause is the disjunction of its literals, kept in the order in which
    they were given. -/
abbrev Clause := List Literal

namespace Clause

/-- The clause with the given literal values, or the error of the first value
    that is no literal. -/
def ofInts (values : List Int) : Except StructuralError Clause :=
  values.mapM Literal.ofInt

/-- Whether the clause has exactly one literal. -/
def isUnit : Clause → Bool
  | [_] => true
  | _ => false

/-- Whether the clause holds two complementary literals. -/
def isTautology (c : Clause) : Bool :=
  c.any fun l => c.contains l.negate

/-- The literals of the clause in ascending order, each once. -/
def canonical (c : Clause) : Clause :=
  sortDistinct c

/-- Every literal replaced by its complement. -/
def flip (c : Clause) : Clause :=
  c.map Literal.negate

/-- The literal at a position. -/
def literalAt (clause : Clause) (i : Nat) : Except Fault Literal :=
  match clause[i]? with
  | some l => .ok l
  | none => .error .outOfRange

/-- The clause with the literal at a position replaced. -/
def replaceAt (c : Clause) (i : Nat) (l : Literal) : Except Fault Clause :=
  if i < c.length then .ok (c.set i l) else .error .outOfRange

/-- The clause with the literals at two positions exchanged. -/
def swap (c : Clause) (i j : Nat) : Except Fault Clause := do
  let l ← c.literalAt i
  let m ← c.literalAt j
  return (c.set i m).set j l

/-- Succeeds if every variable is at most `numVars`, and otherwise names the
    first that is not. -/
def checkRange (c : Clause) (numVars : Nat) : Except StructuralError Unit :=
  match c.find? fun l => decide (numVars < l.var.id) with
  | some l => .error (.variableOutOfRange l.var.id numVars)
  | none => .ok ()

/-- The clause as a line of literals ended by 0. -/
def render (c : Clause) : String :=
  String.join (c.map fun l => l.render ++ " ") ++ "0"

end Clause

end Clausal
