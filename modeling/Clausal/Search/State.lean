import Clausal.BranchOrder
import Clausal.Propagation
import Clausal.Trail

namespace Clausal

/-- Counters of one solve. -/
structure Statistics where
  /-- Literals chosen by the search. -/
  decisions : Nat := 0
  /-- Variables forced by propagation. -/
  propagations : Nat := 0
  /-- Decisions that made a clause false. -/
  conflicts : Nat := 0
  /-- Returns to an earlier decision. -/
  backtracks : Nat := 0
  /-- Variables given a value before the search. -/
  fixed : Nat := 0
deriving DecidableEq, Repr

namespace Search

/-- What the search works on: the clauses, the order of its decisions, and
    whether the watch index is checked after every propagation. -/
structure Problem where
  clauses : Array Clause
  order : BranchOrder
  audit : Bool

/-- The state at the head of the search loop. -/
structure State where
  position : Nat
  assignment : Assignment
  watches : Watches
  trail : Trail
  stats : Statistics

/-- What one round of the search loop does. -/
inductive Move where
  /-- The variable has a value, so its position is passed over. -/
  | skip
  /-- A literal is made true and the search goes on at the next position. -/
  | decide (l : Literal) (implications : Array (Nat × Literal))
  /-- A literal is made true, which makes a clause false, and taken back. -/
  | fail (l : Literal) (implications : Array (Nat × Literal)) (clause : Nat)
  /-- Both literals have failed, so the latest decision is taken back. -/
  | retreat

/-- The events of a move at a position. -/
def Move.events (position : Nat) : Move → List Event
  | .skip => []
  | .decide l implications => .decision l position :: Propagation.events implications
  | .fail l implications clause =>
    .decision l position :: Propagation.events implications ++ [.decisionConflict l clause]
  | .retreat => []

/-- How one round of the search loop ends. -/
inductive Transition where
  /-- The search is over. -/
  | finished (verdict : Verdict) (state : State)
  /-- The search goes on. -/
  | moved (move : Move) (state : State)

/-- Why a round of the search loop cannot be finished, with the counters and the
    events up to that point. -/
structure Halt where
  failure : Failure StructuralError
  stats : Statistics
  events : List Event

/-- Passes over a position whose variable has a value. -/
def skip : State → Except Halt Transition
  | ⟨position, assignment, watches, trail, stats⟩ =>
    match trail.record position .skipped with
    | .error reason => .error ⟨.fault reason, stats, []⟩
    | .ok trail => .ok (.moved .skip ⟨position + 1, assignment, watches, trail, stats⟩)

/-- Checks the watch index if the problem asks for it. -/
def auditIfAsked (p : Problem) (watches : Watches) (assignment : Assignment) :
    Except (Failure StructuralError) Unit :=
  if p.audit then watches.audit p.clauses assignment else .ok ()

/-- Makes a literal true and propagates that. If a clause becomes false, the
    literal is taken back. -/
def attempt (p : Problem) (l : Literal) : State → Except Halt Transition
  | ⟨position, assignment, watches, trail, stats⟩ =>
    match trail.markTried l with
    | .error reason => .error ⟨.fault reason, stats, []⟩
    | .ok trail =>
      match assignment.assign l with
      | .error reason => .error ⟨.fault reason, stats, []⟩
      | .ok assignment =>
        let stats := { stats with decisions := stats.decisions + 1 }
        match watches.propagate l.negate p.clauses assignment with
        | .error failure =>
          let move := Move.decide l failure.implications
          .error ⟨.fault failure.reason, stats, move.events position⟩
        | .ok (.settled watches assignment implications) =>
          let stats := { stats with propagations := stats.propagations + implications.size }
          let move := Move.decide l implications
          match auditIfAsked p watches assignment with
          | .error failure => .error ⟨failure, stats, move.events position⟩
          | .ok () =>
            match trail.record position (.decision l (Propagation.impliedVars implications)) with
            | .error reason => .error ⟨.fault reason, stats, move.events position⟩
            | .ok trail => .ok (.moved move ⟨position + 1, assignment, watches, trail, stats⟩)
        | .ok (.conflict clause watches assignment implications) =>
          let stats := { stats with conflicts := stats.conflicts + 1 }
          let move := Move.fail l implications clause
          match assignment.unassign l.var with
          | .error reason => .error ⟨.fault reason, stats, move.events position⟩
          | .ok assignment => .ok (.moved move ⟨position, assignment, watches, trail, stats⟩)

/-- Takes back the records in front of a position, the latest first, up to and
    including the latest decision. Gives the position of that decision, if there
    is one. -/
def rewind : Nat → Trail → Assignment → Except Fault (Option Nat × Trail × Assignment)
  | 0, trail, assignment => .ok (none, trail, assignment)
  | position + 1, trail, assignment =>
    match trail.undo position assignment with
    | .error reason => .error reason
    | .ok (true, trail, assignment) => .ok (some position, trail, assignment)
    | .ok (false, trail, assignment) => rewind position trail assignment

/-- Leaves a position at which both literals of its variable have failed. If no
    decision is left to take back, there is no solution. -/
def retreat (v : Variable) : State → Except Halt Transition
  | ⟨position, assignment, watches, trail, stats⟩ =>
    match trail.clearTried v with
    | .error reason => .error ⟨.fault reason, stats, []⟩
    | .ok trail =>
      match rewind position trail assignment with
      | .error reason => .error ⟨.fault reason, stats, []⟩
      | .ok (none, trail, assignment) =>
        .ok (.finished .unsatisfiable ⟨0, assignment, watches, trail, stats⟩)
      | .ok (some position, trail, assignment) =>
        let stats := { stats with backtracks := stats.backtracks + 1 }
        .ok (.moved .retreat ⟨position, assignment, watches, trail, stats⟩)

/-- Whether a position is passed over: its variable has a value, which the
    search has not chosen there. -/
def isSettled (v : Variable) (record : Option Step) (s : State) : Bool :=
  record.isNone && (s.assignment.value? v).isSome && !s.trail.anyTried v

/-- One round of the search loop. It is over behind the last position of the
    order. -/
def step (p : Problem) (s : State) : Except Halt Transition :=
  if h : s.position < p.order.vars.size then
    let v := p.order.vars[s.position]
    match s.trail.stepAt s.position with
    | .error reason => .error ⟨.fault reason, s.stats, []⟩
    | .ok record =>
      if isSettled v record s then skip s
      else
        match (p.order.phases v).find? fun l => !s.trail.isTried l with
        | some l => attempt p l s
        | none => retreat v s
  else if s.position = p.order.vars.size then .ok (.finished .satisfiable s)
  else .error ⟨.fault .outOfRange, s.stats, []⟩

end Search

end Clausal
