import Clausal.Proofs.Search.Counters
import Clausal.Proofs.Solver.Correctness

namespace Clausal.Solver

variable {options : Options} {f : Formula} {p : Search.Problem} {origin : Search.State}

/-- A solve that starts a search reports the counters of the search. -/
theorem Launches.stats_solve (h : Launches options f p origin) (hvalid : f.validate = .ok ())
    (interrupt : Interrupt) (log : Log) :
    ∃ log', (solve options interrupt f log).stats =
      (Id.run (Search.run (fun round => pure (interrupt.fires round)) p 0 origin log')).stats := by
  have hproblem : p = ⟨p.clauses.toList.toArray, p.order, options.audit⟩ := by
    rw [← h.audited]
  simp only [solve, solveWith, hvalid, h.prepared, search, h.indexed, h.ordered, ← hproblem,
    ← h.started]
  generalize ((log.emit _).emit _).emit _ = log'
  refine ⟨log', ?_⟩
  rw [Id.run_bind]
  split <;> rfl

/-- At every visit of the head of the search loop, each decision has failed, has been
    taken back or is on record. A search that finds no solution has tried both
    literals wherever it decided, and one that finds a solution has at most one
    decision left for every position. The counters that a solve reports are those of
    its search. -/
theorem search_counters_balance (options : Options) (f : Formula) (hvalid : f.validate = .ok ())
    (p : Search.Problem) (origin : Search.State) (hlaunch : Launches options f p origin) :
    (∀ s, Search.Visits p origin s →
      s.stats.decisions = s.stats.conflicts + s.stats.backtracks + s.trail.decisionCount) ∧
    (∀ (fires : Nat → Bool) (log : Log) (s : Search.State),
      let ending := Id.run (Search.run (fun round => pure (fires round)) p 0 origin log)
      (ending.result = .ok (.unsatisfiable, s) →
        ending.stats.decisions = 2 * ending.stats.backtracks + 2 ∧
        ending.stats.conflicts = ending.stats.backtracks + 2) ∧
      (ending.result = .ok (.satisfiable, s) →
        ending.stats.conflicts + ending.stats.backtracks ≤ ending.stats.decisions ∧
        ending.stats.decisions - ending.stats.conflicts - ending.stats.backtracks ≤
          p.order.size)) ∧
    ∀ interrupt log, ∃ log', (solve options interrupt f log).stats =
      (Id.run (Search.run (fun round => pure (interrupt.fires round)) p 0 origin log')).stats := by
  have hf := Formula.validate_eq_ok_iff.mp hvalid
  have hp := hlaunch.wellPosed hf
  have hinvariant := hlaunch.invariant hf
  have hstart : Search.Balanced origin := by
    rw [hlaunch.started]
    exact Search.balanced_start p f.numVars _ _ _
  have hbalanced {s : Search.State} (hvisits : Search.Visits p origin s) : Search.Balanced s :=
    hvisits.balanced hp hinvariant hstart
  refine ⟨fun s hvisits => (hbalanced hvisits).records, fun fires log s => ?_,
    hlaunch.stats_solve hvalid⟩
  dsimp only
  refine ⟨fun hresult => ?_, fun hresult => ?_⟩
  · obtain ⟨hstats, last, hvisits, hstep | ⟨hunknown, _⟩⟩ := Search.exists_last_visit hresult
    · rw [hstats]
      exact (hbalanced hvisits).exhausted hp (hvisits.invariant hp hinvariant) hstep
    · cases hunknown
  · obtain ⟨hstats, last, hvisits, hstep | ⟨hunknown, _⟩⟩ := Search.exists_last_visit hresult
    · obtain ⟨_, rfl⟩ | ⟨hunsatisfiable, _⟩ := Search.finished_cases hstep
      · rw [hstats]
        exact (hbalanced hvisits).bounded (hvisits.invariant hp hinvariant)
      · cases hunsatisfiable
    · cases hunknown

/-- The formula that forbids each of the eight ways to give three variables values.
    None of its clauses is forced before two variables have values. -/
private theorem exists_cube :
    ∃ f, Formula.ofRows [[1, 2, 3], [1, 2, -3], [1, -2, 3], [1, -2, -3], [-1, 2, 3], [-1, 2, -3],
        [-1, -2, 3], [-1, -2, -3]] = .ok f ∧ f.validate = .ok () ∧
      (∃ w, Watches.ofClauses f.clauses f.numVars (.blank f.numVars) = .ok w) ∧
      ∀ v : Valuation, ¬ v.Satisfies f.clauses := by
  refine ⟨_, rfl, rfl, ⟨_, rfl⟩, fun v hsat => ?_⟩
  simp only [Formula.ofParts, Valuation.Satisfies, Valuation.Makes, Literal.var,
    Literal.polarity] at hsat
  cases hfirst : v ⟨1, by decide, by decide⟩ <;> cases hsecond : v ⟨2, by decide, by decide⟩ <;>
    cases hthird : v ⟨3, by decide, by decide⟩ <;> simp [hfirst, hsecond, hthird] at hsat

/-- Three variables in all eight combinations, searched without reductions. -/
theorem search_counters_balance_of_cube :
    ∃ f p origin s, Formula.ofRows [[1, 2, 3], [1, 2, -3], [1, -2, 3], [1, -2, -3], [-1, 2, 3],
        [-1, 2, -3], [-1, -2, 3], [-1, -2, -3]] = .ok f ∧ f.validate = .ok () ∧
      Launches { preprocess := false } f p origin ∧
      (∀ s, Search.Visits p origin s →
        s.stats.decisions = s.stats.conflicts + s.stats.backtracks + s.trail.decisionCount) ∧
      let ending := Id.run (Search.run (fun _ => pure false) p 0 origin (.empty none))
      ending.result = .ok (.unsatisfiable, s) ∧
        ending.stats.decisions = 2 * ending.stats.backtracks + 2 ∧
        ending.stats.conflicts = ending.stats.backtracks + 2 := by
  obtain ⟨f, hrows, hvalid, ⟨w, hwatches⟩, hnone⟩ := exists_cube
  have hf := Formula.validate_eq_ok_iff.mp hvalid
  have hprepare : prepare { preprocess := false } f =
      .ok (.ready ⟨f.clauses, .blank f.numVars⟩) := by
    simp only [prepare, Assignment.create_eq_ok hf.numVars]
    rfl
  obtain ⟨order, _, hlaunch⟩ := exists_launches hf hprepare hwatches
  obtain ⟨ending, hrun, verdict, s, hresult, hends⟩ := Search.run_spec (fun _ => false)
    (hlaunch.wellPosed hf) (hlaunch.invariant hf) 0 (.empty none)
  obtain ⟨hheads, hcounters, _⟩ :=
    search_counters_balance { preprocess := false } f hvalid _ _ hlaunch
  cases verdict with
  | satisfiable => exact absurd (hends.1.satisfies (hlaunch.wellPosed hf) hends.2) (hnone _)
  | unknown => exact absurd hends.2.choose_spec Bool.false_ne_true
  | unsatisfiable =>
    have hunsatisfiable := (congrArg Search.Ending.result (hrun false)).trans hresult
    exact ⟨f, _, _, s, hrows, hvalid, hlaunch, hheads, hunsatisfiable,
      (hcounters _ _ s).1 hunsatisfiable⟩

end Clausal.Solver
