import Clausal.Formula
import Clausal.Preprocess.Fixpoint
import Clausal.Search.Run

namespace Clausal

namespace Solver

/-- Choices for one solve. -/
structure Options where
  /-- Reduce the formula before the search. -/
  preprocess : Bool := true
  /-- Check the watch index after every propagation. -/
  audit : Bool := false
deriving DecidableEq, Repr

/-- Decides for every round of the search, counted from 0, whether to give up in
    front of it. -/
structure Interrupt where
  fires : Nat → Bool

namespace Interrupt

/-- Never gives up. -/
def never : Interrupt := ⟨fun _ => false⟩

/-- Gives up in front of the first round. -/
def immediate : Interrupt := ⟨fun _ => true⟩

end Interrupt

/-- What a solve ends with: the solution or the reason why there is none, the
    counters, and the log. -/
structure Outcome where
  result : Except (Failure StructuralError) Solution
  stats : Statistics
  log : Log

/-- What the clauses are like when the search is to start. -/
inductive Prepared where
  /-- The reductions have shown that there is no solution. -/
  | contradiction (cause : ContradictionCause)
  /-- The clauses that are left and the values given so far. -/
  | ready (r : Reduct)

/-- Reduces the formula if the options ask for it. -/
def prepare (options : Options) (f : Formula) : Except Fault Prepared := do
  let r : Reduct := ⟨f.clauses, ← Assignment.create f.numVars⟩
  if options.preprocess then
    match Pass.runToFixpoint .standard r with
    | .ok r => return .ready r
    | .error (.error contradiction) => return .contradiction contradiction.cause
    | .error (.fault reason) => throw reason
  else return .ready r

/-- The solution that belongs to the end of a search. -/
def solutionOf (numVars : Nat) : Verdict → Search.State → Solution
  | .satisfiable, s => .ofModel s.assignment.model
  | .unsatisfiable, _ => .unsatisfiable numVars
  | .unknown, _ => .unknown numVars

/-- Searches the clauses that are left after the reductions. -/
def search {m : Type → Type} [Monad m] (poll : Nat → m Bool) (options : Options) (numVars : Nat)
    (r : Reduct) (log : Log) : m Outcome := do
  let ⟨clauses, a⟩ := r
  let fixed := a.fixedCount
  let stats : Statistics := { fixed := fixed }
  let log := log.emit (.reductionFinished clauses.length fixed)
  match Watches.ofClauses clauses numVars a with
  | .error (.fault reason) => return ⟨.error (.fault reason), stats, log⟩
  | .error (.error _) =>
    return ⟨.ok (.unsatisfiable numVars), stats, log.emit .falseBeforeSearch⟩
  | .ok watches =>
    let log := log.emit (watches.builtEvent clauses.length)
    match BranchOrder.ofClauses clauses a with
    | .error reason => return ⟨.error (.fault reason), stats, log⟩
    | .ok order =>
      let p : Search.Problem := ⟨clauses.toArray, order, options.audit⟩
      let ending ← Search.run poll p 0 (Search.start p numVars a watches fixed) log
      match ending.result with
      | .error failure => return ⟨.error failure, ending.stats, ending.log⟩
      | .ok (verdict, s) =>
        let log := ending.log.emit
          (.solveFinished verdict ending.stats.decisions ending.stats.conflicts)
        return ⟨.ok (solutionOf numVars verdict s), ending.stats, log⟩

/-- Decides a formula, asking `poll` in front of every round of the search
    whether to give up. -/
def solveWith {m : Type → Type} [Monad m] (poll : Nat → m Bool) (options : Options)
    (f : Formula) (log : Log) : m Outcome := do
  match f.validate with
  | .error cause => return ⟨.error (.error cause), {}, log⟩
  | .ok () =>
    let log := log.emit (.solveStarted f.clauses.length f.numVars)
    match prepare options f with
    | .error reason => return ⟨.error (.fault reason), {}, log⟩
    | .ok (.contradiction cause) =>
      let events := cause.event?.toList ++ [.reductionContradiction]
      return ⟨.ok (.unsatisfiable f.numVars), {}, log.emitAll events⟩
    | .ok (.ready r) => search poll options f.numVars r log

/-- Decides a formula. The answer is unknown only if the interrupt fires. -/
def solve (options : Options) (interrupt : Interrupt) (f : Formula) (log : Log) : Outcome :=
  Id.run (solveWith (fun round => pure (interrupt.fires round)) options f log)

end Solver

end Clausal
