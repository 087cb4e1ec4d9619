import Clausal.Log
import Clausal.Watches

namespace Clausal

/-- Where a clause is to be watched under an assignment. -/
inductive WatchChoice where
  /-- By a true literal, or by the first of two unassigned ones. -/
  | live (l : Literal)
  /-- By the only unassigned literal of a clause that is false otherwise. -/
  | implied (l : Literal)
  /-- By none, because every literal is false. -/
  | nowhere
deriving DecidableEq, Repr

namespace WatchChoice

/-- Looks for a true or a second unassigned literal, where `first` is the
    unassigned literal met so far. -/
def second (a : Assignment) (first : Literal) : List Literal → WatchChoice
  | [] => .implied first
  | l :: rest =>
    match a.literalValue? l with
    | some true => .live l
    | some false => second a first rest
    | none => if l = first then second a first rest else .live first

/-- Chooses the watch of a clause from left to right. -/
def of (a : Assignment) : List Literal → WatchChoice
  | [] => .nowhere
  | l :: rest =>
    match a.literalValue? l with
    | some true => .live l
    | some false => of a rest
    | none => second a l rest

/-- The literal that is implied is the one that has been found first. -/
theorem second_eq_implied {a : Assignment} {first l : Literal} {rest : List Literal}
    (h : second a first rest = .implied l) : l = first := by
  induction rest with
  | nil => simpa [second, eq_comm] using h
  | cons m rest ih =>
    unfold second at h
    split at h
    · cases h
    · exact ih h
    · split at h
      · exact ih h
      · cases h

/-- An implied literal has no value yet. -/
theorem literalValue?_of_implied {a : Assignment} {l : Literal} {c : List Literal}
    (h : of a c = .implied l) : a.literalValue? l = none := by
  induction c with
  | nil => cases h
  | cons m rest ih =>
    unfold of at h
    split at h
    · cases h
    · exact ih h
    · rename_i hm
      rw [second_eq_implied h, hm]

end WatchChoice

/-- The working state of unit propagation: the index, the assignment, the
    implications made so far with the clauses that forced them, and the literals
    that became false and whose buckets are still to be visited, latest
    first. -/
structure Propagation where
  watches : Watches
  assignment : Assignment
  implications : Array (Nat × Literal)
  pending : List Literal

/-- A fault met during propagation and the implications announced before it. -/
structure PropagationFault where
  reason : Fault
  implications : Array (Nat × Literal)

/-- What the visit of one bucket ends with. -/
inductive Visit where
  /-- Every clause of the bucket has found a watch. -/
  | done (state : Propagation)
  /-- A clause is false; the clauses behind it have not been visited. -/
  | conflict (clause : Nat) (rest : List Nat) (state : Propagation)

namespace Propagation

/-- Moves the clauses of a bucket to their new watches, one after the other, and
    makes the literals true that are forced on the way. -/
def visit (clauses : Array Clause) : List Nat → Propagation → Except PropagationFault Visit
  | [], p => .ok (.done p)
  | clause :: rest, ⟨watches, assignment, implications, pending⟩ =>
    match clauses[clause]? with
    | none => .error ⟨.outOfRange, implications⟩
    | some c =>
      match WatchChoice.of assignment c with
      | .live l =>
        match watches.push l clause with
        | .error reason => .error ⟨reason, implications⟩
        | .ok watches => visit clauses rest ⟨watches, assignment, implications, pending⟩
      | .implied l =>
        let implications := implications.push (clause, l)
        match assignment.assign l with
        | .error reason => .error ⟨reason, implications⟩
        | .ok assignment =>
          match watches.push l clause with
          | .error reason => .error ⟨reason, implications⟩
          | .ok watches =>
            visit clauses rest ⟨watches, assignment, implications, l.negate :: pending⟩
      | .nowhere => .ok (.conflict clause rest ⟨watches, assignment, implications, pending⟩)

/-- The variables that were forced, in order. -/
def impliedVars (implications : Array (Nat × Literal)) : List Variable :=
  implications.toList.map (·.2.var)

/-- The events of implications. -/
def events (implications : Array (Nat × Literal)) : List Event :=
  implications.toList.map fun (clause, l) => .implication clause l

/-- The variables without a value and the buckets still to be visited. Every
    bucket that is visited makes their number smaller. -/
def work (p : Propagation) : Nat :=
  p.assignment.values.countP Option.isNone + p.pending.length

end Propagation

namespace Assignment

private theorem countP_isNone_assign {a a' : Assignment} {l : Literal}
    (hvalue : a.literalValue? l = none) (hassign : a.assign l = .ok a') :
    a'.values.countP Option.isNone + 1 = a.values.countP Option.isNone := by
  unfold assign set update at hassign
  split at hassign
  · rename_i hslot
    cases hassign
    have hentry : a.values[l.var.slot] = none := by
      simpa [literalValue?, value?, hslot] using hvalue
    have hpos : 0 < a.values.countP Option.isNone :=
      Array.countP_pos_iff.mpr ⟨_, Array.getElem_mem hslot, by simp [hentry]⟩
    simp only [Array.countP_set hslot, hentry, Option.isNone_none, Option.isNone_some]
    simp
    omega
  · cases hassign

end Assignment

namespace Propagation

/-- The visit of a bucket leaves the amount of work as it is: every variable it
    gives a value adds one bucket to visit. -/
theorem work_visit {clauses : Array Clause} {bucket : List Nat} {p p' : Propagation}
    (h : visit clauses bucket p = .ok (.done p')) : p'.work = p.work := by
  induction bucket generalizing p with
  | nil => cases h; rfl
  | cons clause rest ih =>
    unfold visit at h
    split at h
    · cases h
    · split at h
      · split at h
        · cases h
        · have hwork := ih h
          simpa only [work] using hwork
      · rename_i hchoice
        split at h
        · cases h
        · rename_i hassign
          split at h
          · cases h
          · have hcount := Assignment.countP_isNone_assign
              (WatchChoice.literalValue?_of_implied hchoice) hassign
            have hwork := ih h
            simp only [work, List.length_cons] at hwork ⊢
            omega
      · cases h

/-- How propagation ends. -/
inductive Outcome where
  /-- No clause is left to move; the implications stay in force. -/
  | settled (watches : Watches) (assignment : Assignment) (implications : Array (Nat × Literal))
  /-- A clause is false; the implications have been taken back. -/
  | conflict (clause : Nat) (watches : Watches) (assignment : Assignment)
      (implications : Array (Nat × Literal))

/-- Ends with a conflict: the clause found false and those behind it go back to
    the bucket they came from, and every implication is taken back. -/
def abandon (falsified : Literal) (clause : Nat) (rest : List Nat) (p : Propagation) :
    Except PropagationFault Outcome :=
  let ⟨watches, assignment, implications, _⟩ := p
  match watches.extend falsified (clause :: rest) with
  | .error reason => .error ⟨reason, implications⟩
  | .ok watches =>
    match assignment.unassignAll (impliedVars implications) with
    | .error reason => .error ⟨reason, implications⟩
    | .ok assignment => .ok (.conflict clause watches assignment implications)

/-- Visits the buckets of the pending literals until none is left or a clause is
    found false. -/
def settle (clauses : Array Clause) (p : Propagation) : Except PropagationFault Outcome :=
  match p with
  | ⟨watches, assignment, implications, []⟩ => .ok (.settled watches assignment implications)
  | ⟨watches, assignment, implications, falsified :: pending⟩ =>
    match watches.bucket falsified with
    | .error reason => .error ⟨reason, implications⟩
    | .ok bucket =>
      match watches.clear falsified with
      | .error reason => .error ⟨reason, implications⟩
      | .ok cleared =>
        match _hvisit :
          visit clauses bucket.toList ⟨cleared, assignment, implications, pending⟩ with
        | .error failure => .error failure
        | .ok (.done p') => settle clauses p'
        | .ok (.conflict clause rest p') => abandon falsified clause rest p'
termination_by p.work
decreasing_by
  rw [work_visit _hvisit]
  simp [work]

end Propagation

namespace Watches

/-- Moves the clauses watched by a literal that has become false and follows the
    implications of that. -/
def propagate (w : Watches) (falsified : Literal) (clauses : Array Clause) (a : Assignment) :
    Except PropagationFault Propagation.Outcome :=
  Propagation.settle clauses ⟨w, a, #[], [falsified]⟩

end Watches

end Clausal
