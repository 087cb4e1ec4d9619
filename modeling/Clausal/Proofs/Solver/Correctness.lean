import Clausal.Proofs.Solver.Solve

namespace Clausal

namespace Solver

@[simp] theorem Interrupt.fires_never (round : Nat) : Interrupt.never.fires round = false := rfl

/-- Only well-formed formulas are solved. -/
theorem wellFormed_of_solve {options : Options} {interrupt : Interrupt} {f : Formula} {log : Log}
    {solution : Solution} (hsolve : (solve options interrupt f log).result = .ok solution) :
    f.WellFormed := by
  apply Formula.validate_eq_ok_iff.mp
  cases hvalid : f.validate with
  | ok _ => rfl
  | error cause =>
    simp only [solve, solveWith, hvalid] at hsolve
    cases hsolve

/-- What a solve gives is an answer. -/
theorem Answers.of_solve {options : Options} {interrupt : Interrupt} {f : Formula} {log : Log}
    {solution : Solution} (hf : f.WellFormed)
    (hsolve : (solve options interrupt f log).result = .ok solution) :
    Answers f interrupt.fires solution := by
  obtain ⟨outcome, houtcome, solution', hresult, hanswers⟩ :=
    solve_spec hf options interrupt log
  rw [houtcome options.audit, hresult] at hsolve
  obtain rfl := Except.ok.inj hsolve
  exact hanswers

/-- Checking the model that a solve has found confirms it. -/
theorem Answers.verify {f : Formula} {fires : Nat → Bool} {solution : Solution}
    (hf : f.WellFormed) (h : Answers f fires solution)
    (hverdict : solution.verdict = .satisfiable) : f.verify solution = .ok true := by
  cases h with
  | unsatisfiable => cases hverdict
  | unknown => cases hverdict
  | @satisfiable a hnumVars hsat =>
    have hmodel : (Valuation.ofModel a.model).Satisfies f.clauses :=
      Assignment.satisfies_of_model (by rw [hnumVars]; exact hf.range) hsat
        fun _ hl => Assignment.ofModel_makes_model hl
    obtain ⟨answer, hverify, hiff⟩ := Formula.verify_spec hf (.ofModel a.model)
    rw [hverify, hiff.mpr ⟨a.model, rfl, hmodel⟩]

/-- A solve that is not told to give up finds out whether a formula is
    satisfiable. -/
theorem solve_quiet_spec {f : Formula} {interrupt : Interrupt} (hf : f.WellFormed)
    (hquiet : ∀ round, interrupt.fires round = false) (options : Options) (log : Log) :
    ∃ solution, (solve options interrupt f log).result = .ok solution ∧
      (solution.verdict = .satisfiable ∧ (∃ v : Valuation, v.Satisfies f.clauses) ∨
        solution.verdict = .unsatisfiable ∧ ∀ v : Valuation, ¬ v.Satisfies f.clauses) := by
  obtain ⟨outcome, houtcome, solution, hresult, hanswers⟩ :=
    solve_spec hf options interrupt log
  refine ⟨solution, by rw [houtcome options.audit, hresult], ?_⟩
  cases hanswers with
  | satisfiable _ hsat => exact .inl ⟨rfl, _, hsat⟩
  | unsatisfiable hnone => exact .inr ⟨rfl, hnone⟩
  | @unknown round hfires =>
    rw [hquiet round] at hfires
    cases hfires

/-- A satisfiable solution has one literal per variable, in the order of the
    variables, and whatever makes its literals true satisfies the formula, so
    that checking the solution confirms it. -/
theorem solve_satisfiable_sound (options : Options) (interrupt : Interrupt) (f : Formula)
    (log : Log) (solution : Solution) (hvalid : f.validate = .ok ())
    (hsolve : (solve options interrupt f log).result = .ok solution)
    (hverdict : solution.verdict = .satisfiable) :
    ∃ model, solution.model? = some model ∧ model.length = f.numVars ∧
      (∀ i l, model[i]? = some l → l.var.id = i + 1) ∧
      (∀ v : Valuation, (∀ l ∈ model, v.Makes l) → v.Satisfies f.clauses) ∧
      f.verify solution = .ok true := by
  have hf := Formula.validate_eq_ok_iff.mp hvalid
  cases Answers.of_solve hf hsolve with
  | unsatisfiable => cases hverdict
  | unknown => cases hverdict
  | @satisfiable a hnumVars hsat =>
    have hmax : a.numVars ≤ Variable.maxId := by rw [hnumVars]; exact hf.numVars
    have hall (v : Valuation) (hmodel : ∀ l ∈ a.model, v.Makes l) : v.Satisfies f.clauses :=
      Assignment.satisfies_of_model (by rw [hnumVars]; exact hf.range) hsat hmodel
    refine ⟨a.model, rfl, by rw [Assignment.length_model hmax, hnumVars],
      fun i l hl => Assignment.id_of_getElem?_model hmax hl, hall, ?_⟩
    obtain ⟨answer, hverify, hiff⟩ := Formula.verify_spec hf (.ofModel a.model)
    have hanswer : answer = true :=
      hiff.mpr ⟨a.model, rfl, hall _ fun l hl => Assignment.ofModel_makes_model hl⟩
    rw [hverify, hanswer]

/-- Three clauses in a cycle, which have a solution. -/
theorem solve_satisfiable_sound_of_cycle :
    ∃ f solution, Formula.ofRows [[1, -2], [2, 3], [-1, -3]] = .ok f ∧ f.validate = .ok () ∧
      (solve {} .never f (.empty none)).result = .ok solution ∧
      solution.verdict = .satisfiable ∧
      ∃ model, solution.model? = some model ∧ model.length = f.numVars ∧
        (∀ i l, model[i]? = some l → l.var.id = i + 1) ∧
        (∀ v : Valuation, (∀ l ∈ model, v.Makes l) → v.Satisfies f.clauses) ∧
        f.verify solution = .ok true := by
  obtain ⟨f, hrows, hvalid, hsat⟩ :
      ∃ f, Formula.ofRows [[1, -2], [2, 3], [-1, -3]] = .ok f ∧ f.validate = .ok () ∧
        Valuation.Satisfies (fun v => v.id == 3) f.clauses := ⟨_, rfl, rfl, by decide⟩
  obtain ⟨solution, hsolve, ⟨hverdict, _⟩ | ⟨_, hnone⟩⟩ :=
    solve_quiet_spec (Formula.validate_eq_ok_iff.mp hvalid) Interrupt.fires_never {} (.empty none)
  · exact ⟨f, solution, hrows, hvalid, hsolve, hverdict,
      solve_satisfiable_sound {} .never f (.empty none) solution hvalid hsolve hverdict⟩
  · exact absurd hsat (hnone _)

/-- If a formula is reported as unsatisfiable, no valuation satisfies it. -/
theorem solve_unsatisfiable_sound (options : Options) (interrupt : Interrupt) (f : Formula)
    (log : Log) (solution : Solution) (hvalid : f.validate = .ok ())
    (hsolve : (solve options interrupt f log).result = .ok solution)
    (hverdict : solution.verdict = .unsatisfiable) :
    ¬ ∃ v : Valuation, v.Satisfies f.clauses := by
  have hf := Formula.validate_eq_ok_iff.mp hvalid
  cases Answers.of_solve hf hsolve with
  | satisfiable => cases hverdict
  | unknown => cases hverdict
  | unsatisfiable hnone =>
    rintro ⟨v, hsat⟩
    exact hnone v hsat

/-- The formula that forbids each of the four ways to give two variables values,
    none of which an empty assignment shows to be forbidden. -/
theorem exists_square :
    ∃ f, Formula.ofRows [[1, 2], [1, -2], [-1, 2], [-1, -2]] = .ok f ∧ f.validate = .ok () ∧
      (∃ w, Watches.ofClauses f.clauses f.numVars (.blank f.numVars) = .ok w) ∧
      ∀ v : Valuation, ¬ v.Satisfies f.clauses := by
  refine ⟨_, rfl, rfl, ⟨_, rfl⟩, fun v hsat => ?_⟩
  simp only [Formula.ofParts, Valuation.Satisfies, Valuation.Makes, Literal.var,
    Literal.polarity] at hsat
  cases hfirst : v ⟨1, by decide, by decide⟩ <;> cases hsecond : v ⟨2, by decide, by decide⟩ <;>
    simp [hfirst, hsecond] at hsat

/-- Two variables in all four combinations, which have no solution. -/
theorem solve_unsatisfiable_sound_of_square :
    ∃ f solution, Formula.ofRows [[1, 2], [1, -2], [-1, 2], [-1, -2]] = .ok f ∧
      f.validate = .ok () ∧ (solve {} .never f (.empty none)).result = .ok solution ∧
      solution.verdict = .unsatisfiable ∧ ¬ ∃ v : Valuation, v.Satisfies f.clauses := by
  obtain ⟨f, hrows, hvalid, _, hnone⟩ := exists_square
  obtain ⟨solution, hsolve, ⟨_, v, hsat⟩ | ⟨hverdict, _⟩⟩ :=
    solve_quiet_spec (Formula.validate_eq_ok_iff.mp hvalid) Interrupt.fires_never {} (.empty none)
  · exact absurd hsat (hnone v)
  · exact ⟨f, solution, hrows, hvalid, hsolve, hverdict,
      solve_unsatisfiable_sound {} .never f (.empty none) solution hvalid hsolve hverdict⟩

end Solver

end Clausal
