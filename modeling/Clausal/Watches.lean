import Clausal.Assignment
import Clausal.Log

namespace Clausal

/-- A clause, named by its index, all of whose literals are false. -/
structure Conflict where
  clause : Nat
deriving DecidableEq, Repr

/-- The watch index keeps a bucket of clause indices for every literal code. A
    clause is to be in exactly one bucket, that of one of its literals which is
    not false. -/
structure Watches where
  buckets : Array (Array Nat)
deriving DecidableEq, Repr

namespace Watches

/-- The index without entries for the literals of `numVars` variables. -/
def blank (numVars : Nat) : Watches :=
  ⟨Array.replicate (LiteralCode.tableLength numVars) #[]⟩

/-- The index without entries, unless its table would be too large. -/
def create (numVars : Nat) : Except Fault Watches := do
  Word.checkTable (← Word.add (← Word.mul 2 numVars) 2) 64
  return blank numVars

/-- The clauses watched by a literal. -/
def bucket (w : Watches) (l : Literal) : Except Fault (Array Nat) :=
  if h : l.code.index < w.buckets.size then .ok w.buckets[l.code.index]
  else .error .outOfRange

/-- Appends a clause to the bucket of a literal. -/
def push (w : Watches) (l : Literal) (clause : Nat) : Except Fault Watches :=
  if l.code.index < w.buckets.size then
    .ok ⟨w.buckets.modify l.code.index (·.push clause)⟩
  else .error .outOfRange

/-- Appends several clauses to the bucket of a literal. -/
def extend (w : Watches) (l : Literal) (clauses : List Nat) : Except Fault Watches :=
  if l.code.index < w.buckets.size then
    .ok ⟨w.buckets.modify l.code.index (· ++ clauses.toArray)⟩
  else .error .outOfRange

/-- Empties the bucket of a literal. -/
def clear (w : Watches) (l : Literal) : Except Fault Watches :=
  if h : l.code.index < w.buckets.size then
    .ok ⟨w.buckets.set l.code.index #[] h⟩
  else .error .outOfRange

/-- Places a clause in the bucket of its first literal that is not false. -/
def place (a : Assignment) (w : Watches) (entry : Clause × Nat) :
    Except (Failure Conflict) Watches :=
  match entry.1.find? fun l => !a.falsifies l with
  | some l => w.push l entry.2
  | none => .error (.error ⟨entry.2⟩)

/-- The index of a clause list under an assignment, unless the assignment makes
    some clause false. -/
def ofClauses (clauses : List Clause) (numVars : Nat) (a : Assignment) :
    Except (Failure Conflict) Watches := do
  clauses.zipIdx.foldlM (place a) (← create numVars)

/-- The event of an index that has been built for a number of clauses. -/
def builtEvent (w : Watches) (clauses : Nat) : Event := .watching clauses w.buckets.size

/-- The entries of all buckets that belong to a literal, each with the code of
    its bucket. -/
def entries (w : Watches) : List (LiteralCode × Nat) :=
  w.buckets.toList.zipIdx.flatMap fun (clauses, index) =>
    match LiteralCode.ofIndex? index with
    | none => []
    | some code => clauses.toList.map fun clause => (code, clause)

/-- Marks the clause of an entry as seen, if it was not seen before and the
    watching literal is one of its own and not false. -/
def auditEntry (clauses : Array Clause) (a : Assignment) (seen : Array Bool)
    (entry : LiteralCode × Nat) : Except (Failure StructuralError) (Array Bool) :=
  if h : entry.2 < clauses.size ∧ entry.2 < seen.size then
    let l := entry.1.literal
    if seen[entry.2] || !(clauses[entry.2]).contains l || a.falsifies l then
      .error (.error (.watchInvariant entry.2))
    else .ok (seen.set entry.2 true)
  else .error (.fault .outOfRange)

/-- Succeeds if every clause is in exactly one bucket, that of one of its own
    literals, and that literal is not false. -/
def audit (w : Watches) (clauses : Array Clause) (a : Assignment) :
    Except (Failure StructuralError) Unit := do
  let seen ← w.entries.foldlM (auditEntry clauses a) (Array.replicate clauses.size false)
  match seen.toList.findIdx? (!·) with
  | some clause => throw (.error (.watchInvariant clause))
  | none => return ()

end Watches

end Clausal
