import Clausal.Proofs.Formula.Canonical
import Clausal.Proofs.Reduction.Canonical
import Clausal.Proofs.Solver.Rearrangement

namespace Clausal

namespace Solver

/-- A solve with reductions answers the same for a formula and for its canonical
    form. -/
theorem solve_simplify {options : Options} {f : Formula} (hf : f.WellFormed)
    (hnodup : ∀ c ∈ f.clauses, c.Nodup) (hpreprocess : options.preprocess = true)
    (interrupt : Interrupt) (log log' : Log) :
    (solve options interrupt f.simplify log').result = (solve options interrupt f log).result := by
  have hmax : (Assignment.blank f.numVars).numVars ≤ Variable.maxId := by
    rw [Assignment.numVars_blank]
    exact hf.numVars
  have hnumVars : f.simplify.numVars = f.numVars := rfl
  simp only [solve, solveWith, Formula.validate_eq_ok_iff.mpr hf,
    Formula.validate_eq_ok_iff.mpr hf.simplify]
  obtain ⟨r, hprepare, hprepare'⟩ | ⟨cause, cause', hprepare, hprepare'⟩ :=
    prepare_of_coincide hf hf.simplify hnumVars hpreprocess
      (Pass.coincide_simplify hnodup hmax (covered_blank hf))
  · obtain ⟨result, stats, hsearch⟩ := search_uniform interrupt.fires options f.numVars r
    obtain ⟨_, hfirst⟩ := hsearch (log.emit (.solveStarted f.clauses.length f.numVars))
    obtain ⟨_, hsecond⟩ := hsearch (log'.emit (.solveStarted f.simplify.clauses.length f.numVars))
    simp only [hprepare, hprepare', hnumVars, hfirst, hsecond]
  · simp only [hprepare, hprepare', hnumVars]
    rfl

end Solver

end Clausal
