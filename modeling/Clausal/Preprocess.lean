import Clausal.Assignment
import Clausal.Log
import Clausal.NormalForm
import Std.Data.HashSet

namespace Clausal

/-- A formula that is being reduced: the clauses left and the values given to
    variables so far. -/
structure Reduct where
  clauses : List Clause
  assignment : Assignment

/-- What shows that a formula being reduced has no solution. -/
inductive ContradictionCause where
  /-- A unit clause is false. -/
  | unit (l : Literal)
  /-- A clause has lost its last literal. -/
  | emptied
deriving DecidableEq, Repr

/-- The event of a contradiction, if there is one. -/
def ContradictionCause.event? : ContradictionCause → Option Event
  | .unit l => some (.unitContradiction l)
  | .emptied => none

/-- A contradiction and the values given to variables when it was found. -/
structure Contradiction where
  cause : ContradictionCause
  assignment : Assignment

/-- The result of reducing a formula. -/
abbrev Reduced := Except (Failure Contradiction) Reduct

/-- A reduction applied before the search, or a chain of such reductions, which
    may itself hold chains. -/
inductive Pass where
  /-- Makes the literals of unit clauses true. -/
  | unit
  /-- Makes the literals true whose complements do not occur. -/
  | pure
  /-- Removes true clauses and false literals. -/
  | reduce
  /-- Removes the clauses with complementary literals. -/
  | tautology
  /-- Brings the clauses into canonical form. -/
  | simplify
  /-- Applies several passes in turn. -/
  | chain (passes : List Pass)

namespace Pass

/-- The chain applied before every search. -/
def standard : Pass := .chain [.unit, .reduce, .pure, .reduce, .tautology, .simplify]

/-- Makes the literal of a unit clause true. Other clauses have no effect. -/
def fixUnit (a : Assignment) (c : Clause) : Except (Failure Contradiction) Assignment :=
  match c with
  | [l] =>
    match a.literalValue? l with
    | some true => .ok a
    | some false => .error (.error ⟨.unit l, a⟩)
    | none =>
      match a.assign l with
      | .ok a => .ok a
      | .error reason => .error (.fault reason)
  | _ => .ok a

/-- Makes the literals of all unit clauses true, from the first clause to the
    last. -/
def fixUnits : List Clause → Assignment → Except (Failure Contradiction) Assignment
  | [], a => .ok a
  | c :: rest, a =>
    match fixUnit a c with
    | .ok a => fixUnits rest a
    | .error failure => .error failure

/-- The literals without a value whose complements do not occur, ascending. -/
def pureLiterals (clauses : List Clause) (a : Assignment) : List Literal :=
  let occurring : Std.HashSet Literal := clauses.foldl
    (fun set c => c.foldl
      (fun set l => if (a.literalValue? l).isNone then set.insert l else set) set) ∅
  sortDistinct (occurring.toList.filter fun l => !occurring.contains l.negate)

/-- Removes the false literals of a clause, and the clause itself if it is
    true. -/
def reduceClause (a : Assignment) (c : Clause) : Option Clause :=
  if a.satisfies c then none else some (c.filter fun l => !a.falsifies l)

/-- Removes the true clauses and the false literals of the others. -/
def reduceClauses (clauses : List Clause) (a : Assignment) : List Clause :=
  clauses.filterMap (reduceClause a)

mutual

/-- Applies a pass. -/
def run : Pass → Reduct → Reduced
  | .unit, ⟨clauses, a⟩ =>
    match fixUnits clauses a with
    | .ok a => .ok ⟨clauses, a⟩
    | .error failure => .error failure
  | .pure, ⟨clauses, a⟩ =>
    match a.assignAll (pureLiterals clauses a) with
    | .ok a => .ok ⟨clauses, a⟩
    | .error reason => .error (.fault reason)
  | .reduce, ⟨clauses, a⟩ =>
    let reduced := reduceClauses clauses a
    if reduced.any List.isEmpty then .error (.error ⟨.emptied, a⟩) else .ok ⟨reduced, a⟩
  | .tautology, ⟨clauses, a⟩ => .ok ⟨clauses.filter fun c => !c.isTautology, a⟩
  | .simplify, ⟨clauses, a⟩ => .ok ⟨Clausal.simplify clauses, a⟩
  | .chain passes, r => runAll passes r

/-- Applies passes from the first to the last. -/
def runAll : List Pass → Reduct → Reduced
  | [], r => .ok r
  | pass :: rest, r =>
    match pass.run r with
    | .ok r => runAll rest r
    | .error failure => .error failure

end

end Pass

end Clausal
