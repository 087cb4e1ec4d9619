import Clausal.Proofs.Solver.Correctness
import Clausal.Solver.Alarm

namespace Clausal

variable {σ : Type}

namespace Solver

/-- The state in front of the poll of each round, where nothing but the polls
    changes it. -/
def pollStates (poll : Nat → StateM σ Bool) (s : σ) : Nat → σ
  | 0 => s
  | round + 1 => ((poll round).run (pollStates poll s round)).2

/-- The interrupt that polls amount to. -/
def Interrupt.ofPolls (poll : Nat → StateM σ Bool) (s : σ) : Interrupt :=
  ⟨fun round => ((poll round).run (pollStates poll s round)).1⟩

end Solver

open Solver

/-- A search that polls is the search under the interrupt that its polls amount to.
    Nothing but the polls touches the state. -/
theorem Search.exists_run_eq (poll : Nat → StateM σ Bool) (origin : σ) (p : Problem)
    (rounds : Nat) (s : State) (log : Log) :
    ∃ polls, (run poll p rounds s log).run (pollStates poll origin rounds) =
      (Id.run (run (fun round => pure ((Interrupt.ofPolls poll origin).fires round)) p rounds s
        log), pollStates poll origin polls) := by
  rw [run_eq, run, StateT.run_bind]
  change ∃ polls, StateT.run (if (Interrupt.ofPolls poll origin).fires rounds then _ else _)
    (pollStates poll origin (rounds + 1)) = _
  cases (Interrupt.ofPolls poll origin).fires rounds with
  | true => exact ⟨rounds + 1, rfl⟩
  | false =>
    simp only [Bool.false_eq_true, if_false]
    split
    next hstep => exact ⟨rounds + 1, by rw [hstep]; rfl⟩
    next hstep => exact ⟨rounds + 1, by rw [hstep]; rfl⟩
    next move s' hstep =>
      have hless := remaining_step hstep
      simp only [hstep]
      exact exists_run_eq poll origin p (rounds + 1) s' (log.emitAll (move.events s.position))
termination_by remaining p s

namespace Solver

/-- The search of what the reductions have left is the one under the interrupt that its
    polls amount to, its launch included. -/
theorem exists_search_eq (poll : Nat → StateM σ Bool) (options : Options) (numVars : Nat)
    (r : Reduct) (log : Log) (s : σ) :
    ∃ polls, (search poll options numVars r log).run s =
      (Id.run (search (fun round => pure ((Interrupt.ofPolls poll s).fires round)) options numVars
        r log), pollStates poll s polls) := by
  simp only [search]
  cases Watches.ofClauses r.clauses numVars r.assignment with
  | error failure =>
    cases failure with
    | fault reason => exact ⟨0, rfl⟩
    | error conflict => exact ⟨0, rfl⟩
  | ok w =>
    cases BranchOrder.ofClauses r.clauses r.assignment with
    | error reason => exact ⟨0, rfl⟩
    | ok order =>
      dsimp only
      generalize (log.emit _).emit _ = log'
      obtain ⟨polls, hrun⟩ := Search.exists_run_eq poll s
        ⟨r.clauses.toArray, order, options.audit⟩ 0 (Search.start
          ⟨r.clauses.toArray, order, options.audit⟩ numVars r.assignment w
          r.assignment.fixedCount) log'
      refine ⟨polls, ?_⟩
      rw [pollStates] at hrun
      rw [StateT.run_bind, hrun, Id.run_bind]
      generalize Id.run _ = ending
      obtain ⟨result, stats, log''⟩ := ending
      cases result with
      | error failure => rfl
      | ok found => rfl

/-- A solve that polls is the solve under the interrupt that its polls amount to, so
    what holds of a solve under every interrupt holds of it. Nothing but the polls
    touches the state. -/
theorem exists_solveWith_eq (poll : Nat → StateM σ Bool) (options : Options) (f : Formula)
    (log : Log) (s : σ) :
    ∃ polls, (solveWith poll options f log).run s =
      (solve options (.ofPolls poll s) f log, pollStates poll s polls) := by
  simp only [solve, solveWith]
  cases f.validate with
  | error cause => exact ⟨0, rfl⟩
  | ok _ =>
    cases prepare options f with
    | error reason => exact ⟨0, rfl⟩
    | ok prepared =>
      cases prepared with
      | contradiction cause => exact ⟨0, rfl⟩
      | ready r => exact exists_search_eq poll options f.numVars r _ s

/-- Polls that always answer no amount to no interrupt and leave the state as it is. -/
theorem solveWith_quiet (options : Options) (f : Formula) (log : Log) (s : σ) :
    (solveWith (fun _ => (pure false : StateM σ Bool)) options f log).run s =
      (solve options .never f log, s) := by
  obtain ⟨polls, hsolve⟩ := exists_solveWith_eq (fun _ => pure false) options f log s
  have hstate : pollStates (fun _ => (pure false : StateM σ Bool)) s polls = s := by
    clear hsolve
    induction polls with
    | zero => rfl
    | succ polls ih => exact ih
  rw [hsolve, hstate]
  rfl

namespace Alarm

variable {now : StateM σ Nat} {budget : Nat} {alarm : Alarm (StateM σ)} {s : σ}

/-- The alarm that never rings does not read the clock. -/
theorem rings_silent (now : StateM σ Nat) : rings now silent = pure false := rfl

/-- An alarm with a deadline and no flag rings if the deadline has come. -/
theorem rings_deadline (now : StateM σ Nat) (deadline : Nat) (t : σ) :
    (rings now { silent with deadline := some deadline }).run t =
      (decide (deadline ≤ (now.run t).1), (now.run t).2) := rfl

/-- A budget of 0 is none. -/
theorem withTimeout_zero (now : StateM σ Nat) (alarm : Alarm (StateM σ)) :
    withTimeout now 0 alarm = pure (.ok alarm) := rfl

/-- Any other budget is counted from the instant that the clock shows. -/
theorem withTimeout_run (hbudget : budget ≠ 0) (now : StateM σ Nat) (alarm : Alarm (StateM σ))
    (s : σ) : (withTimeout now budget alarm).run s =
      (alarm.dueAfter (now.run s).1 budget, (now.run s).2) := by
  rw [withTimeout, if_neg hbudget]
  rfl

/-- An alarm set by a budget rings when the budget is used up, and never if it is 0. -/
theorem rings_iff (h : ((withTimeout now budget silent).run s).1 = .ok alarm) (t : σ) :
    ((alarm.rings now).run t).1 = true ↔
      budget ≠ 0 ∧ (now.run s).1 + budget ≤ (now.run t).1 := by
  by_cases hbudget : budget = 0
  · rw [hbudget, withTimeout_zero] at h
    cases h
    simp [rings_silent, hbudget]
  · rw [withTimeout_run hbudget] at h
    simp only [dueAfter] at h
    split at h <;> cases h
    simp [rings_deadline, hbudget]

end Alarm

/-- A solve with an alarm set by a budget gives up only if the budget is used up at
    the poll of a round. -/
theorem exists_due_of_unknown {now : StateM σ Nat} {budget : Nat} {alarm : Alarm (StateM σ)}
    {options : Options} {f : Formula} {log : Log} {s t : σ} {solution : Solution}
    (halarm : ((Alarm.withTimeout now budget .silent).run s).1 = .ok alarm)
    (hsolve : ((solveWith (fun _ => alarm.rings now) options f log).run t).1.result = .ok solution)
    (hverdict : solution.verdict = .unknown) :
    budget ≠ 0 ∧ ∃ round, (now.run s).1 + budget ≤
      (now.run (pollStates (fun _ => alarm.rings now) t round)).1 := by
  obtain ⟨polls, hpolls⟩ := exists_solveWith_eq (fun _ => alarm.rings now) options f log t
  rw [hpolls] at hsolve
  cases Answers.of_solve (wellFormed_of_solve hsolve) hsolve with
  | satisfiable => cases hverdict
  | unsatisfiable => cases hverdict
  | @unknown round hfires =>
    obtain ⟨hbudget, hdue⟩ := (Alarm.rings_iff halarm _).mp hfires
    exact ⟨hbudget, round, hdue⟩

end Solver

end Clausal
