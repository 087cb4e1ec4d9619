import Clausal.Proofs.Solver.Correctness
import Clausal.Proofs.Sudoku.Decoding

namespace Clausal.Sudoku.Puzzle

variable {p : Puzzle} {interrupt : Solver.Interrupt}

/-- The rules can be satisfied if the puzzle has a solution. -/
theorem exists_satisfies_rules_iff (hp : p.WellFormed) :
    (∃ v : Valuation, v.Satisfies p.rules) ↔ ∃ t, p.SolvedBy t := by
  constructor
  · rintro ⟨v, hsat⟩
    obtain ⟨g, hlegal, hcompleted, _⟩ := satisfies_rules_iff_exists_grid.mp hsat
    exact ⟨_, (solvedBy_iff_exists_grid hp).mpr ⟨g, hlegal, hcompleted, rfl⟩⟩
  · rintro ⟨t, hsolved⟩
    obtain ⟨g, hlegal, hcompleted, _⟩ := (solvedBy_iff_exists_grid hp).mp hsolved
    obtain ⟨v, hdescribes⟩ := g.exists_describes
    exact ⟨v, satisfies_rules_iff_exists_grid.mpr ⟨g, hlegal, hcompleted, hdescribes⟩⟩

/-- Solving a puzzle encodes it, solves the formula and decodes the answer, and stops at
    the first failure. -/
theorem solve_fst (p : Puzzle) (options : Solver.Options) (interrupt : Solver.Interrupt)
    (log : Log) : ∃ log', (p.solve options interrupt log).1 =
      match p.toFormula with
      | .error failure => .error failure
      | .ok f =>
        match (Solver.solve options interrupt f log').result with
        | .error failure => .error (failure.map .structural)
        | .ok solution => p.decode solution := by
  rw [← p.toFormulaLogged_fst log, solve]
  obtain ⟨result, log'⟩ := p.toFormulaLogged log
  refine ⟨log', ?_⟩
  cases result with
  | error failure => rfl
  | ok f =>
    dsimp only
    cases (Solver.solve options interrupt f log').result with
    | error failure => rfl
    | ok solution => rfl

/-- A model of the rules is decoded to a solution of the puzzle. -/
theorem decode_of_satisfies (hp : p.WellFormed) {a : Assignment} (hnumVars : a.numVars = p.numVars)
    (hsat : a.valuation.Satisfies p.rules) :
    ∃ t, p.decode (.ofModel a.model) = .ok t ∧ p.SolvedBy t := by
  obtain ⟨g, hlegal, hcompleted, hdescribes⟩ := satisfies_rules_iff_exists_grid.mp hsat
  exact ⟨_, decode_eq hp hcompleted hnumVars hdescribes,
    (solvedBy_iff_exists_grid hp).mpr ⟨g, hlegal, hcompleted, rfl⟩⟩

/-- A satisfiable solution of the formula of a puzzle is decoded to a solution of
    the puzzle. -/
theorem decode_of_solve (hp : p.WellFormed) {f : Formula} (hformula : p.toFormula = .ok f)
    {options : Solver.Options} {log : Log} {s : Solution}
    (hsolve : (Solver.solve options interrupt f log).result = .ok s)
    (hverdict : s.verdict = .satisfiable) : ∃ t, p.decode s = .ok t ∧ p.SolvedBy t := by
  obtain ⟨-, _, _, _, _, _, herror⟩ | ⟨-, hrules⟩ := toFormula_spec hp
  · rw [hformula] at herror
    cases herror
  · obtain rfl := Except.ok.inj (hformula.symm.trans hrules)
    cases Solver.Answers.of_solve (wellFormed_rules hp) hsolve with
    | satisfiable hnumVars hsat => exact decode_of_satisfies hp hnumVars hsat
    | unsatisfiable => cases hverdict
    | unknown => cases hverdict

/-- The three ways in which solving a puzzle ends. -/
theorem solve_cases (hp : p.WellFormed) (hquiet : ∀ round, interrupt.fires round = false)
    (options : Solver.Options) (log : Log) :
    (p.Clashes ∧ ∃ row col otherRow otherCol digit, (p.solve options interrupt log).1 =
        .error (.error (.inconsistentPuzzle row col otherRow otherCol digit))) ∨
    ¬ p.Clashes ∧ (∃ t, (p.solve options interrupt log).1 = .ok t ∧ p.SolvedBy t) ∨
    ¬ p.Clashes ∧ (p.solve options interrupt log).1 =
        .error (.error (.notSatisfiable .unsatisfiable)) ∧ ¬ ∃ t, p.SolvedBy t := by
  obtain ⟨log', hsolve⟩ := p.solve_fst options interrupt log
  rw [hsolve]
  obtain ⟨hclashes, row, col, otherRow, otherCol, digit, herror⟩ | ⟨hclashes, hformula⟩ :=
    toFormula_spec hp
  · rw [herror]
    exact .inl ⟨hclashes, row, col, otherRow, otherCol, digit, rfl⟩
  · have hf := wellFormed_rules hp
    obtain ⟨solution, hresult, _⟩ := Solver.solve_quiet_spec hf hquiet options log'
    simp only [hformula, hresult]
    refine .inr ?_
    cases Solver.Answers.of_solve hf hresult with
    | satisfiable hnumVars hsat => exact .inl ⟨hclashes, decode_of_satisfies hp hnumVars hsat⟩
    | unsatisfiable hnone =>
      refine .inr ⟨hclashes, rfl, ?_⟩
      rw [← exists_satisfies_rules_iff hp, not_exists]
      exact hnone
    | @unknown round hfires =>
      rw [hquiet round] at hfires
      cases hfires

/-- Solving decides a puzzle: it ends with a solution, with a clash if there is
    one, or else with the answer that there is no solution. -/
theorem solve_settles {b : Board} (hboard : ofBoard b = .ok p)
    (hquiet : ∀ round, interrupt.fires round = false) (options : Solver.Options) (log : Log) :
    ((∃ t, (p.solve options interrupt log).1 = .ok t ∧ p.SolvedBy t) ∨
      (∃ row col otherRow otherCol digit, (p.solve options interrupt log).1 =
        .error (.error (.inconsistentPuzzle row col otherRow otherCol digit))) ∨
      (p.solve options interrupt log).1 = .error (.error (.notSatisfiable .unsatisfiable))) ∧
    ((∃ row col otherRow otherCol digit, (p.solve options interrupt log).1 =
        .error (.error (.inconsistentPuzzle row col otherRow otherCol digit))) ↔ p.Clashes) ∧
    ((p.solve options interrupt log).1 = .error (.error (.notSatisfiable .unsatisfiable)) ↔
      ¬ p.Clashes ∧ ¬ ∃ t, p.SolvedBy t) := by
  obtain ⟨_, hp⟩ := ofBoard_eq_ok_iff.mp hboard
  obtain ⟨hclashes, row, col, otherRow, otherCol, digit, hresult⟩ |
    ⟨hclashes, t, hresult, hsolved⟩ | ⟨hclashes, hresult, hnone⟩ :=
    solve_cases hp hquiet options log
  · refine ⟨.inr (.inl ⟨row, col, otherRow, otherCol, digit, hresult⟩), ?_, ?_⟩
    · simp [hresult, hclashes]
    · simp [hresult, hclashes]
  · refine ⟨.inl ⟨t, hresult, hsolved⟩, ?_, ?_⟩
    · simp [hresult, hclashes]
    · have hsome : ∃ t, p.SolvedBy t := ⟨t, hsolved⟩
      simp [hresult, hsome]
  · refine ⟨.inr (.inr hresult), ?_, ?_⟩
    · simp [hresult, hclashes]
    · simp only [hresult, hclashes, hnone, not_false_eq_true, and_self]

section Boards

/-- A puzzle has no solution if every digit is given somewhere in the row, column
    or box of one place. -/
theorem not_solvedBy_of_blocked (hp : p.WellFormed) {place : p.order.Place}
    (hblocked : ∀ d : Fin p.order.side, ∃ a, place ≠ a ∧ p.order.sharesUnit place a = true ∧
      p.givenAt a = d.val + 1) : ¬ ∃ t, p.SolvedBy t := by
  rintro ⟨t, hsolved⟩
  obtain ⟨g, hlegal, hcompleted, _⟩ := (solvedBy_iff_exists_grid hp).mp hsolved
  obtain ⟨a, hne, hshares, hgiven⟩ := hblocked (g place)
  have hdigit := (hcompleted a).resolve_left (by omega)
  exact hlegal place a hne hshares (Fin.ext (by omega))

/-- A board with four different digits on its diagonal has a solution. -/
theorem exists_diagonal :
    ∃ p, ofBoard [[1, 0, 0, 0], [0, 0, 3, 0], [0, 4, 0, 0], [0, 0, 0, 2]] = .ok p ∧
      ¬ p.Clashes ∧ ∃ t, p.SolvedBy t := by
  let p : Puzzle :=
    ⟨⟨2, by decide, by decide⟩, [[1, 0, 0, 0], [0, 0, 3, 0], [0, 4, 0, 0], [0, 0, 0, 2]]⟩
  have hp : p.WellFormed := wellFormed_of_square ⟨rfl, by decide⟩ (by decide)
  let g : Grid p.order := fun place =>
    ⟨Board.digitAt [[0, 2, 1, 3], [3, 1, 2, 0], [1, 3, 0, 2], [2, 0, 3, 1]] place.1 place.2 % 4,
      Nat.mod_lt _ (by decide)⟩
  have hlegal : g.Legal := by decide
  have hcompleted : p.CompletedBy g := by decide
  exact ⟨p, ofBoard_eq_ok_iff.mpr ⟨rfl, hp⟩, by decide, _,
    (solvedBy_iff_exists_grid hp).mpr ⟨g, hlegal, hcompleted, rfl⟩⟩

/-- A board without a clash need not have a solution: the last cell of its first row
    allows no digit. -/
theorem exists_deadEnd :
    ∃ p, ofBoard [[1, 2, 3, 0], [0, 0, 0, 4], [0, 0, 0, 0], [0, 0, 0, 0]] = .ok p ∧
      ¬ p.Clashes ∧ ¬ ∃ t, p.SolvedBy t := by
  let p : Puzzle :=
    ⟨⟨2, by decide, by decide⟩, [[1, 2, 3, 0], [0, 0, 0, 4], [0, 0, 0, 0], [0, 0, 0, 0]]⟩
  have hp : p.WellFormed := wellFormed_of_square ⟨rfl, by decide⟩ (by decide)
  let corner : p.order.Place := ((0 : Fin 4), (3 : Fin 4))
  have hblocked : ∀ d : Fin p.order.side, ∃ a, corner ≠ a ∧
      p.order.sharesUnit corner a = true ∧ p.givenAt a = d.val + 1 := by decide
  exact ⟨p, ofBoard_eq_ok_iff.mpr ⟨rfl, hp⟩, by decide, not_solvedBy_of_blocked hp hblocked⟩

/-- A board with a solution, and one without. -/
theorem solve_settles_of_diagonal_and_dead_end :
    (∃ p t, ofBoard [[1, 0, 0, 0], [0, 0, 3, 0], [0, 4, 0, 0], [0, 0, 0, 2]] = .ok p ∧
      (p.solve {} .never (.empty none)).1 = .ok t ∧ p.SolvedBy t) ∧
    ∃ p, ofBoard [[1, 2, 3, 0], [0, 0, 0, 4], [0, 0, 0, 0], [0, 0, 0, 0]] = .ok p ∧
      (p.solve {} .never (.empty none)).1 = .error (.error (.notSatisfiable .unsatisfiable)) := by
  constructor
  · obtain ⟨p, hboard, hclashes, hsome⟩ := exists_diagonal
    obtain ⟨⟨t, hresult, hsolved⟩ | hclash | hnone, hclash_iff, hnone_iff⟩ :=
      solve_settles hboard Solver.Interrupt.fires_never {} (.empty none)
    · exact ⟨p, t, hboard, hresult, hsolved⟩
    · exact absurd (hclash_iff.mp hclash) hclashes
    · exact absurd hsome (hnone_iff.mp hnone).2
  · obtain ⟨p, hboard, hclashes, hnone⟩ := exists_deadEnd
    obtain ⟨_, _, hnone_iff⟩ :=
      solve_settles hboard Solver.Interrupt.fires_never {} (.empty none)
    exact ⟨p, hboard, hnone_iff.mpr ⟨hclashes, hnone⟩⟩

end Boards

end Clausal.Sudoku.Puzzle
