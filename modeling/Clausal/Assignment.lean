import Clausal.Clause

namespace Clausal

/-- A partial valuation of the variables 1 to `numVars`. Variables are numbered by
    unsigned 32-bit words, so a table of 2³² entries or more, in which numbers would be
    cut off to 32 bits, is outside of what `declared` and `fixedCount` describe. A
    formula with so many variables does not pass validation. -/
structure Assignment where
  values : Array (Option Bool)
deriving DecidableEq, Repr

namespace Assignment

/-- The number of variables the assignment covers. -/
def numVars (a : Assignment) : Nat := a.values.size

/-- The assignment that gives none of its variables a value. -/
def blank (numVars : Nat) : Assignment := ⟨Array.replicate numVars none⟩

/-- The blank assignment, unless its table would be too large. -/
def create (numVars : Nat) : Except Fault Assignment := do
  Word.checkTable (← Word.add numVars 1) 1
  return blank numVars

/-- The value of a variable. Variables outside the assignment have none. -/
@[inline] def value? (a : Assignment) (v : Variable) : Option Bool :=
  if h : v.slot < a.values.size then a.values[v.slot] else none

/-- The value of a literal under the assignment. -/
@[inline] def literalValue? (a : Assignment) (l : Literal) : Option Bool :=
  (a.value? l.var).map (· == l.polarity)

/-- Whether the assignment makes the literal false. -/
def falsifies (a : Assignment) (l : Literal) : Bool :=
  a.literalValue? l == some false

/-- Whether the assignment makes some literal of the clause true. -/
def satisfies (a : Assignment) (c : Clause) : Bool :=
  c.any fun l => a.literalValue? l == some true

/-- Overwrites the entry of a variable. -/
@[inline] def update (a : Assignment) (v : Variable) (entry : Option Bool) :
    Except Fault Assignment :=
  if h : v.slot < a.values.size then .ok ⟨a.values.set v.slot entry h⟩
  else .error .outOfRange

/-- Gives a variable a value. -/
def set (a : Assignment) (v : Variable) (value : Bool) : Except Fault Assignment :=
  a.update v (some value)

/-- Makes a literal true. -/
def assign (a : Assignment) (l : Literal) : Except Fault Assignment :=
  a.set l.var l.polarity

/-- Takes the value of a variable away. -/
def unassign (a : Assignment) (v : Variable) : Except Fault Assignment :=
  a.update v none

/-- Makes several literals true, one after the other. -/
def assignAll (a : Assignment) (literals : List Literal) : Except Fault Assignment :=
  literals.foldlM assign a

/-- Takes the values of several variables away. -/
def unassignAll (a : Assignment) (vs : List Variable) : Except Fault Assignment :=
  vs.foldlM unassign a

/-- The entry of a variable, which must be covered by the assignment. -/
def entry (a : Assignment) (v : Variable) : Except Fault (Option Bool) :=
  if h : v.slot < a.values.size then .ok a.values[v.slot] else .error .outOfRange

/-- The variables the assignment covers, ascending, for a table of fewer than 2³²
    entries. -/
def declared (a : Assignment) : List Variable := Variable.upTo a.numVars

/-- The literals the assignment makes true, by ascending variable. -/
def trueLiterals (a : Assignment) : List Literal :=
  a.declared.filterMap fun v => (a.value? v).map v.literal

/-- The number of variables with a value, for a table of fewer than 2³² entries. -/
def fixedCount (a : Assignment) : Nat :=
  a.values.countP Option.isSome

/-- One literal per variable, ascending: the true one where the variable has a
    value, and the negative one elsewhere. -/
def model (a : Assignment) : List Literal :=
  a.declared.map fun v => v.literal ((a.value? v).getD false)

end Assignment

end Clausal
