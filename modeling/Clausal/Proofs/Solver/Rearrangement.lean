import Clausal.Proofs.Reduction.Fixpoint
import Clausal.Proofs.Solver.Correctness

namespace Clausal

namespace Search

/-- What a search finds and counts does not depend on the log it is given. -/
theorem run_uniform (fires : Nat → Bool) (p : Problem) (rounds : Nat) (s : State) :
    ∃ result stats, ∀ log, ∃ log', Id.run (run (fun round => pure (fires round)) p rounds s log) =
      ⟨result, stats, log'⟩ := by
  simp only [run_eq fires p rounds s]
  cases fires rounds with
  | true => exact ⟨_, _, fun _ => ⟨_, rfl⟩⟩
  | false =>
    simp only [Bool.false_eq_true, if_false]
    match hstep : step p s with
    | .error halt => exact ⟨_, _, fun _ => ⟨_, rfl⟩⟩
    | .ok (.finished verdict s') => exact ⟨_, _, fun _ => ⟨_, rfl⟩⟩
    | .ok (.moved move s') =>
      have hless := remaining_step hstep
      obtain ⟨result, stats, hrest⟩ := run_uniform fires p (rounds + 1) s'
      exact ⟨result, stats, fun log => hrest (log.emitAll (move.events s.position))⟩
termination_by remaining p s

end Search

namespace Solver

/-- What a search behind the reductions answers and counts does not depend on the log
    either. -/
theorem search_uniform (fires : Nat → Bool) (options : Options) (numVars : Nat) (r : Reduct) :
    ∃ result stats, ∀ log, ∃ log',
      Id.run (search (fun round => pure (fires round)) options numVars r log) =
        ⟨result, stats, log'⟩ := by
  simp only [search]
  cases Watches.ofClauses r.clauses numVars r.assignment with
  | error failure =>
    cases failure with
    | fault reason => exact ⟨_, _, fun _ => ⟨_, rfl⟩⟩
    | error conflict => exact ⟨_, _, fun _ => ⟨_, rfl⟩⟩
  | ok w =>
    cases BranchOrder.ofClauses r.clauses r.assignment with
    | error reason => exact ⟨_, _, fun _ => ⟨_, rfl⟩⟩
    | ok order =>
      obtain ⟨result, stats, hrun⟩ := Search.run_uniform fires
        ⟨r.clauses.toArray, order, options.audit⟩ 0 (Search.start
          ⟨r.clauses.toArray, order, options.audit⟩ numVars r.assignment w
          r.assignment.fixedCount)
      have hending (log : Log) := hrun ((log.emit (.reductionFinished r.clauses.length
        r.assignment.fixedCount)).emit (w.builtEvent r.clauses.length))
      cases result with
      | error failure =>
        refine ⟨.error failure, stats, fun log => ?_⟩
        obtain ⟨log', hlog⟩ := hending log
        exact ⟨log', by simp only [Id.run_bind, hlog, Id.run_pure]⟩
      | ok ending =>
        obtain ⟨verdict, s⟩ := ending
        refine ⟨.ok (solutionOf numVars verdict s), stats, fun log => ?_⟩
        obtain ⟨log', hlog⟩ := hending log
        exact ⟨log'.emit (.solveFinished verdict stats.decisions stats.conflicts),
          by simp only [Id.run_bind, hlog, Id.run_pure]⟩

/-- What a solve answers and counts does not depend on the log it is given. -/
theorem solve_uniform (options : Options) (interrupt : Interrupt) (f : Formula) :
    ∃ result stats, ∀ log, ∃ log', solve options interrupt f log = ⟨result, stats, log'⟩ := by
  simp only [solve, solveWith]
  cases f.validate with
  | error cause => exact ⟨_, _, fun _ => ⟨_, rfl⟩⟩
  | ok _ =>
    cases prepare options f with
    | error reason => exact ⟨_, _, fun _ => ⟨_, rfl⟩⟩
    | ok prepared =>
      cases prepared with
      | contradiction cause => exact ⟨_, _, fun _ => ⟨_, rfl⟩⟩
      | ready r =>
        obtain ⟨result, stats, hsearch⟩ := search_uniform interrupt.fires options f.numVars r
        exact ⟨result, stats, fun log =>
          hsearch (log.emit (.solveStarted f.clauses.length f.numVars))⟩

variable {options : Options} {f f' : Formula}

/-- The reductions hand the same clauses and values to the search, or find a
    contradiction in both formulas, if they make the same of both in the first
    round. -/
theorem prepare_of_coincide (hf : f.WellFormed) (hf' : f'.WellFormed)
    (hnumVars : f'.numVars = f.numVars) (hpreprocess : options.preprocess = true)
    (hround : Pass.Coincide (Pass.run .standard ⟨f.clauses, .blank f.numVars⟩)
      (Pass.run .standard ⟨f'.clauses, .blank f.numVars⟩)) :
    (∃ r, prepare options f = .ok (.ready r) ∧ prepare options f' = .ok (.ready r)) ∨
    (∃ cause cause', prepare options f = .ok (.contradiction cause) ∧
      prepare options f' = .ok (.contradiction cause')) := by
  have hmax : (Assignment.blank f.numVars).numVars ≤ Variable.maxId := by
    rw [Assignment.numVars_blank]
    exact hf.numVars
  have hfixpoint := Pass.coincide_runToFixpoint hmax (covered_blank hf) hmax
    (hnumVars ▸ covered_blank hf') hround
  have hcreate := Assignment.create_eq_ok hf.numVars
  have hcreate' : Assignment.create f'.numVars = .ok (.blank f.numVars) := by
    rw [hnumVars]
    exact hcreate
  simp only [prepare, hcreate, hcreate', hpreprocess, if_true, bind, Except.bind]
  generalize Pass.runToFixpoint .standard ⟨f.clauses, .blank f.numVars⟩ = result,
    Pass.runToFixpoint .standard ⟨f'.clauses, .blank f.numVars⟩ = result' at hfixpoint
  cases hfixpoint with
  | ok r => exact .inl ⟨r, rfl, rfl⟩
  | contradiction cause cause' => exact .inr ⟨cause.cause, cause'.cause, rfl, rfl⟩

/-- The reductions make the same of a formula and of a rearrangement of it. -/
theorem prepare_rearranged (hf : f.WellFormed) (hf' : f'.WellFormed)
    (hnumVars : f'.numVars = f.numVars) (h : Rearranges f.clauses f'.clauses)
    (hpreprocess : options.preprocess = true) :
    (∃ r, prepare options f = .ok (.ready r) ∧ prepare options f' = .ok (.ready r)) ∨
    (∃ cause cause', prepare options f = .ok (.contradiction cause) ∧
      prepare options f' = .ok (.contradiction cause')) := by
  have hmax : (Assignment.blank f.numVars).numVars ≤ Variable.maxId := by
    rw [Assignment.numVars_blank]
    exact hf.numVars
  exact prepare_of_coincide hf hf' hnumVars hpreprocess (Pass.coincide_canonical
    [.unit, .reduce, .pure, .reduce, .tautology] hmax (covered_blank hf) h.alike)

/-- Reordering clauses, reordering literals of clauses and repeating clauses make
    no difference to what a solve with reductions answers and counts, whenever it
    is told to give up. -/
theorem solve_rearranged (options : Options) (interrupt : Interrupt) (f f' : Formula)
    (log log' : Log) (hvalid : f.validate = .ok ()) (hvalid' : f'.validate = .ok ())
    (hnumVars : f'.numVars = f.numVars) (hrearranges : Rearranges f.clauses f'.clauses)
    (hpreprocess : options.preprocess = true) :
    ∃ solution, (solve options interrupt f log).result = .ok solution ∧
      (solve options interrupt f' log').result = .ok solution ∧
      (solve options interrupt f log).stats = (solve options interrupt f' log').stats := by
  have hf := Formula.validate_eq_ok_iff.mp hvalid
  have hf' := Formula.validate_eq_ok_iff.mp hvalid'
  obtain ⟨outcome, houtcome, solution, hresult, _⟩ := solve_spec hf options interrupt log
  have hsolve : (solve options interrupt f log).result = .ok solution := by
    rw [houtcome options.audit, hresult]
  refine ⟨solution, hsolve, ?_⟩
  rw [← hsolve]
  simp only [solve, solveWith, hvalid, hvalid']
  obtain ⟨r, hprepare, hprepare'⟩ | ⟨cause, cause', hprepare, hprepare'⟩ :=
    prepare_rearranged hf hf' hnumVars hrearranges hpreprocess
  · obtain ⟨result, stats, hsearch⟩ := search_uniform interrupt.fires options f.numVars r
    obtain ⟨_, hfirst⟩ := hsearch (log.emit (.solveStarted f.clauses.length f.numVars))
    obtain ⟨_, hsecond⟩ := hsearch (log'.emit (.solveStarted f'.clauses.length f.numVars))
    simp only [hprepare, hprepare', hnumVars, hfirst, hsecond, and_self]
  · simp only [hprepare, hprepare', hnumVars]
    exact ⟨rfl, rfl⟩

/-- A cycle of three clauses, rearranged and with one of them twice. -/
theorem solve_rearranged_of_cycle :
    ∃ f f' solution, Formula.ofRows [[1, -2], [2, 3], [-1, -3]] = .ok f ∧
      Formula.ofRows [[-3, -1], [1, -2], [2, 3], [1, -2]] = .ok f' ∧
      f.validate = .ok () ∧ f'.validate = .ok () ∧ f'.numVars = f.numVars ∧
      Rearranges f.clauses f'.clauses ∧
      (solve {} .never f (.empty none)).result = .ok solution ∧
      (solve {} .never f' (.empty none)).result = .ok solution ∧
      (solve {} .never f (.empty none)).stats = (solve {} .never f' (.empty none)).stats := by
  -- One clause is repeated, the clauses are reordered, and then the literals of the first.
  obtain ⟨f, f', hrows, hrows', hvalid, hvalid', hnumVars, c, d, d', rest, hc, hclauses, hd, hd'⟩ :
      ∃ f f', Formula.ofRows [[1, -2], [2, 3], [-1, -3]] = .ok f ∧
        Formula.ofRows [[-3, -1], [1, -2], [2, 3], [1, -2]] = .ok f' ∧
        f.validate = .ok () ∧ f'.validate = .ok () ∧ f'.numVars = f.numVars ∧
        ∃ c d d' rest, c ∈ f.clauses ∧ (c :: f.clauses).Perm (d :: rest) ∧ d.Perm d' ∧
          f'.clauses = d' :: rest :=
    ⟨_, _, rfl, rfl, rfl, rfl, rfl, [⟨1, by decide, by decide⟩, ⟨-2, by decide, by decide⟩],
      [⟨-1, by decide, by decide⟩, ⟨-3, by decide, by decide⟩], _, _, by decide, by decide,
      by decide, rfl⟩
  have hrearranges : Rearranges f.clauses f'.clauses := by
    rw [hd']
    exact ((Rearranges.again hc).trans (.reorder hclauses)).trans (.reorderLiterals hd rest)
  obtain ⟨solution, hsolved⟩ := solve_rearranged {} .never f f' (.empty none) (.empty none)
    hvalid hvalid' hnumVars hrearranges rfl
  exact ⟨f, f', solution, hrows, hrows', hvalid, hvalid', hnumVars, hrearranges, hsolved⟩

end Solver

end Clausal
