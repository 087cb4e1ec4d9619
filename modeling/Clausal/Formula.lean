import Clausal.NormalForm
import Clausal.Solution
import Std.Data.HashMap

namespace Clausal

/-- A formula in conjunctive normal form over the variables 1 to `numVars`,
    together with the number of clauses its source declared. -/
structure Formula where
  clauses : List Clause
  numVars : Nat
  declared : Nat
deriving DecidableEq, Repr

namespace Formula

/-- The first violation of the invariants of formulas: too many variables, an
    empty clause, or a variable above the declared number. -/
def validate (f : Formula) : Except StructuralError Unit := do
  if f.numVars > Variable.maxId then
    throw (.tooManyVariables f.numVars Variable.maxId)
  f.clauses.zipIdx.forM fun (c, i) =>
    if c.isEmpty then throw (.emptyClause i) else c.checkRange f.numVars

/-- The formula with the given clauses as they are. -/
def ofParts (numVars : Nat) (clauses : List Clause) : Formula :=
  ⟨clauses, numVars, clauses.length⟩

/-- The formula with the given clauses, if it satisfies the invariants. -/
def ofClauses (numVars : Nat) (clauses : List Clause) : Except StructuralError Formula := do
  let f := ofParts numVars clauses
  f.validate
  return f

/-- The formula with the given literal values. Its variables go up to the
    largest that occurs. -/
def ofRows (rows : List (List Int)) : Except StructuralError Formula := do
  let clauses ← rows.mapM Clause.ofInts
  ofClauses (clauses.flatten.foldl (fun largest l => max largest l.var.id) 0) clauses

/-- All literal occurrences, in order. -/
def literals (f : Formula) : List Literal := f.clauses.flatten

/-- The number of unit clauses. -/
def unitCount (f : Formula) : Nat := f.clauses.countP Clause.isUnit

/-- Appends a clause, which is not checked. -/
def add (f : Formula) (c : Clause) : Formula :=
  ofParts f.numVars (f.clauses ++ [c])

/-- Brings the clauses into canonical form. -/
def simplify (f : Formula) : Formula :=
  ofParts f.numVars (Clausal.simplify f.clauses)

/-- The polarity of the last occurrence of each variable in a model. -/
def lastPolarities (model : List Literal) : Std.HashMap Nat Bool :=
  model.foldl (fun table l => table.insert l.var.id l.polarity) ∅

/-- Whether a solution comes with a model that satisfies every clause. Each
    variable of the formula has the polarity of its last occurrence in the
    model and is false if it does not occur there. -/
def verify (f : Formula) (s : Solution) : Except Fault Bool :=
  match s.model? with
  | none => .ok false
  | some model => do
    Word.checkTable (← Word.add f.numVars 1) 1
    let table := lastPolarities model
    return f.clauses.all fun c => c.any fun l =>
      decide (l.var.id ≤ f.numVars) && table.getD l.var.id false == l.polarity

/-- The formula as text: a problem line with the number of clauses held, then
    one line per clause. -/
def render (f : Formula) : String :=
  s!"p cnf {f.numVars} {f.clauses.length}\n"
    ++ String.join (f.clauses.map fun c => c.render ++ "\n")

end Formula

end Clausal
