import Clausal.Assignment

namespace Clausal

/-- What the search did at one position of the branching order. -/
inductive Step where
  /-- The variable had a value already. -/
  | skipped
  /-- A literal was chosen, and propagation forced the listed variables. -/
  | decision (l : Literal) (implied : List Variable)
deriving DecidableEq, Repr

/-- The record of every search position and the marks of the literals tried at
    their positions. -/
structure Trail where
  steps : Array (Option Step)
  tried : Array Bool
deriving DecidableEq, Repr

namespace Trail

/-- The trail without records and marks. -/
def blank (numVars positions : Nat) : Trail :=
  ⟨Array.replicate positions none, Array.replicate (LiteralCode.tableLength numVars) false⟩

/-- The trail without records and marks, unless its tables would be too
    large. -/
def create (numVars positions : Nat) : Except Fault Trail := do
  Word.checkTable positions 32
  Word.checkTable (← Word.add (← Word.mul 2 numVars) 2) 1
  return blank numVars positions

/-- The number of positions. -/
def size (t : Trail) : Nat := t.steps.size

/-- The record at a position, if the search has been there. -/
def stepAt (t : Trail) (position : Nat) : Except Fault (Option Step) :=
  if h : position < t.steps.size then .ok t.steps[position] else .error .outOfRange

/-- Writes the record at a position. -/
def record (t : Trail) (position : Nat) (step : Step) : Except Fault Trail :=
  if h : position < t.steps.size then
    .ok { t with steps := t.steps.set position (some step) h }
  else .error .outOfRange

/-- Whether a literal is marked as tried. Literals without a mark of their own
    are not. -/
def isTried (t : Trail) (l : Literal) : Bool :=
  if h : l.code.index < t.tried.size then t.tried[l.code.index] else false

/-- Whether either literal of a variable is marked as tried. -/
def anyTried (t : Trail) (v : Variable) : Bool :=
  t.isTried (v.literal true) || t.isTried (v.literal false)

/-- Writes the mark of a literal. -/
def setTried (t : Trail) (l : Literal) (mark : Bool) : Except Fault Trail :=
  if h : l.code.index < t.tried.size then
    .ok { t with tried := t.tried.set l.code.index mark h }
  else .error .outOfRange

/-- Marks a literal as tried. -/
def markTried (t : Trail) (l : Literal) : Except Fault Trail := t.setTried l true

/-- Removes the marks of both literals of a variable. -/
def clearTried (t : Trail) (v : Variable) : Except Fault Trail :=
  match t.setTried (v.literal true) false with
  | .error reason => .error reason
  | .ok t => t.setTried (v.literal false) false

/-- Removes the record at a position. If it was a decision, the variables it
    forced and its own lose their values. Tells whether it was a decision. -/
def undo (t : Trail) (position : Nat) (a : Assignment) :
    Except Fault (Bool × Trail × Assignment) :=
  if h : position < t.steps.size then
    let step := t.steps[position]
    let t := { t with steps := t.steps.set position none h }
    match step with
    | some (.decision l implied) => do
      let a ← a.unassignAll implied
      let a ← a.unassign l.var
      return (true, t, a)
    | _ => .ok (false, t, a)
  else .error .outOfRange

end Trail

end Clausal
