import Clausal.Proofs.Solver.Launch

namespace Clausal

namespace Solver

/-- The solutions that a solve may end with, where `fires` tells in front of
    which rounds of the search it is to give up. -/
inductive Answers (f : Formula) (fires : Nat → Bool) : Solution → Prop
  | satisfiable {a : Assignment} (hnumVars : a.numVars = f.numVars)
      (hsat : a.valuation.Satisfies f.clauses) : Answers f fires (.ofModel a.model)
  | unsatisfiable (hnone : ∀ v : Valuation, ¬ v.Satisfies f.clauses) :
      Answers f fires (.unsatisfiable f.numVars)
  | unknown {round : Nat} (hfires : fires round = true) : Answers f fires (.unknown f.numVars)

variable {options : Options} {f : Formula}

/-- The end of the search settles the original formula, because the reductions in
    front of it keep satisfiability and what satisfies the reduct satisfies the
    formula. -/
theorem Launches.answers {p : Search.Problem} {s s' : Search.State} {fires : Nat → Bool}
    {verdict : Verdict} (hf : f.WellFormed) (h : Launches options f p s)
    (hends : Search.Ends p s.assignment fires verdict s') :
    Answers f fires (solutionOf f.numVars verdict s') := by
  have hpreserves := preserves_of_prepare hf h.prepared
  cases verdict with
  | satisfiable =>
    obtain ⟨hinvariant, hend⟩ := hends
    have hgains := hinvariant.path.gains
    apply Answers.satisfiable (hgains.numVars.trans (h.numVars hf))
    exact hpreserves.reflects _ (s'.assignment.extends_valuation.mono hgains.extends)
      (hinvariant.satisfies (h.wellPosed hf) hend)
  | unsatisfiable =>
    apply Answers.unsatisfiable
    exact hpreserves.not_satisfies hends.2
  | unknown =>
    obtain ⟨_, round, hfires⟩ := hends
    exact .unknown hfires

/-- The search of a reduct goes through, gives a correct answer, and does not
    depend on whether the index is checked. -/
theorem search_spec {r : Reduct} (hf : f.WellFormed)
    (hprepare : prepare options f = .ok (.ready r)) (fires : Nat → Bool) (log : Log) :
    ∃ outcome, (∀ audit, Id.run (search (fun round => pure (fires round))
        { options with audit := audit } f.numVars r log) = outcome) ∧
      ∃ solution, outcome.result = .ok solution ∧ Answers f fires solution := by
  have hpreserves := preserves_of_prepare hf hprepare
  obtain ⟨hnumVars, hcovered⟩ := covered_of_prepare hf hprepare
  have hindex := Watches.ofClauses_spec (a := r.assignment) hf.numVars
    (by rw [← hnumVars]; exact hcovered)
  simp only [search]
  cases hwatches : Watches.ofClauses r.clauses f.numVars r.assignment with
  | error failure =>
    rw [hwatches] at hindex
    cases failure with
    | fault reason => exact hindex.elim
    | error conflict =>
      exact ⟨_, fun _ => rfl, _, rfl, .unsatisfiable (hpreserves.not_satisfies hindex)⟩
  | ok w =>
    obtain ⟨order, horder, hlaunch⟩ := exists_launches hf hprepare hwatches
    simp only [horder]
    generalize (log.emit _).emit _ = log'
    obtain ⟨ending, hrun, verdict, s', hresult, hends⟩ :=
      Search.run_spec fires (hlaunch.wellPosed hf) (hlaunch.invariant hf) 0 log'
    refine ⟨⟨.ok (solutionOf f.numVars verdict s'), ending.stats, ending.log.emit
      (.solveFinished verdict ending.stats.decisions ending.stats.conflicts)⟩, fun audit => ?_,
      _, rfl, hlaunch.answers hf hends⟩
    have hrun' : Id.run (Search.run (fun round => pure (fires round))
        ⟨r.clauses.toArray, order, audit⟩ 0
        (Search.start ⟨r.clauses.toArray, order, audit⟩ f.numVars r.assignment w
          r.assignment.fixedCount) log') = ending := hrun audit
    rw [Id.run_bind, hrun']
    simp only [hresult, Id.run_pure]

/-- Solving a well-formed formula gives a correct answer, which does not depend
    on whether the index is checked. -/
theorem solve_spec (hf : f.WellFormed) (options : Options) (interrupt : Interrupt) (log : Log) :
    ∃ outcome, (∀ audit, solve { options with audit := audit } interrupt f log = outcome) ∧
      ∃ solution, outcome.result = .ok solution ∧ Answers f interrupt.fires solution := by
  obtain ⟨prepared, hprepare, hcorrect⟩ := prepare_spec hf options
  have hprepare' (audit : Bool) : prepare { options with audit := audit } f = .ok prepared :=
    hprepare
  simp only [solve, solveWith, Formula.validate_eq_ok_iff.mpr hf, hprepare']
  cases prepared with
  | contradiction cause => exact ⟨_, fun _ => rfl, _, rfl, .unsatisfiable hcorrect⟩
  | ready r => exact search_spec hf hprepare interrupt.fires _

end Solver

end Clausal
