import Clausal.Command.Host
import Clausal.Proofs.Dimacs.RoundTrip
import Clausal.Proofs.Solution.RoundTrip
import Clausal.Proofs.Solver.Canonical
import Clausal.Proofs.Sudoku.Solve

namespace Clausal

/-- The canonical form of a formula is read back from its text, a solve answers the
    same for it as for the formula itself, and that answer is read back as well. -/
theorem Solver.solve_through_text {options : Options} {f : Formula} (hf : f.WellFormed)
    (hlength : f.clauses.length < Word.bound) (hnodup : ∀ c ∈ f.clauses, c.Nodup)
    (hpreprocess : options.preprocess = true) (interrupt : Interrupt) (log log' : Log) :
    ∃ solution, (solve options interrupt f log).result = .ok solution ∧
      Dimacs.parse (.ofString f.simplify.render) = .ok f.simplify ∧
      (solve options interrupt f.simplify log').result = .ok solution ∧
      Solution.parse (.ofString solution.render) = .ok solution := by
  obtain ⟨outcome, houtcome, solution, hresult, hanswers⟩ := solve_spec hf options interrupt log
  have hsolve : (solve options interrupt f log).result = .ok solution := by
    rw [houtcome options.audit, hresult]
  refine ⟨solution, hsolve, ?_, ?_, ?_⟩
  · exact Dimacs.parse_render hf.simplify (Nat.lt_of_le_of_lt (length_simplify_le _) hlength)
  · rw [solve_simplify hf hnodup hpreprocess interrupt log log', hsolve]
  · exact Solution.parse_render (Solution.regular_of_answers hf hanswers).legible

namespace Sudoku

/-- There are no more pairs than ways to choose two elements one after the other. -/
theorem length_pairs_le {α : Type} (xs : List α) : (pairs xs).length ≤ xs.length * xs.length := by
  induction xs with
  | nil => exact Nat.le_refl _
  | cons x xs ih =>
    rw [pairs, List.length_append, List.length_map, List.length_cons, Nat.succ_mul, Nat.mul_succ]
    omega

namespace Order

variable {o : Order}

/-- There are as many places as rows times columns. -/
theorem length_places (o : Order) : o.places.length = o.side * o.side := by
  simp [places, List.length_flatMap]

/-- There are no more peers than pairs of places. -/
theorem length_peers_le (o : Order) : o.peers.length ≤ (o.side * o.side) * (o.side * o.side) := by
  rw [← length_places]
  exact Nat.le_trans (List.length_filter_le _ _) (length_pairs_le _)

/-- A negative literal belongs to one place and one digit. -/
theorem lacks_inj {a b : o.Place} {d e : Fin o.side} (h : o.lacks a d = o.lacks b e) :
    a = b ∧ d = e := by
  apply variableAt_injective
  simpa [lacks] using congrArg Literal.var h

/-- Different digits of a place have different literals. -/
theorem holds_injective (place : o.Place) : Function.Injective (o.holds place) := by
  intro d e h
  exact (variableAt_injective (by simpa [holds] using congrArg Literal.var h)).2

end Order

namespace Puzzle

variable {p : Puzzle}

/-- No clause of a puzzle repeats a literal. -/
theorem nodup_of_mem_rules {c : Clause} (hc : c ∈ p.rules) : c.Nodup := by
  simp only [rules, List.mem_append, List.mem_flatMap, List.mem_cons, List.mem_map] at hc
  rcases hc with ⟨place, _, rfl | ⟨⟨d, e⟩, hmem, rfl⟩⟩ | ⟨⟨a, b⟩, hmem, d, _, rfl⟩
  · exact ((List.nodup_finRange _).filter _).map (Order.holds_injective place)
  · have hne := ne_of_mem_pairs (List.nodup_finRange _) hmem
    exact Order.nodup_notBothDigits _ fun h => hne (Order.lacks_inj h).2
  · have hne := ne_of_mem_pairs p.order.nodup_places (Order.mem_peers.mp hmem).1
    exact Order.nodup_notBothPlaces _ _ fun h => hne (Order.lacks_inj h).1

/-- A rule for each place, for each pair of digits of a place, and for each digit of a
    pair of peers. -/
theorem length_rules (p : Puzzle) : p.rules.length =
    p.order.side * p.order.side * ((pairs (List.finRange p.order.side)).length + 1) +
      p.order.peers.length * p.order.side := by
  simp [rules, List.length_flatMap, Order.length_places]

/-- The clauses of a puzzle can be counted by a machine word. -/
theorem length_rules_lt (p : Puzzle) : p.rules.length < Word.bound := by
  have harea := p.order.area_le
  have hpairs : (pairs (List.finRange p.order.side)).length ≤ Variable.maxId := by
    refine Nat.le_trans (length_pairs_le _) ?_
    rwa [List.length_finRange]
  have hpeers : p.order.peers.length * p.order.side ≤ Variable.maxId * Variable.maxId :=
    calc p.order.peers.length * p.order.side
        ≤ p.order.side * p.order.side * (p.order.side * p.order.side) * p.order.side :=
          Nat.mul_le_mul_right _ p.order.length_peers_le
      _ = p.order.side * p.order.side * p.order.numVars := Nat.mul_assoc _ _ _
      _ ≤ Variable.maxId * Variable.maxId := Nat.mul_le_mul harea p.order.numVars_le
  calc p.rules.length
      ≤ Variable.maxId * (Variable.maxId + 1) + Variable.maxId * Variable.maxId := by
        rw [length_rules]
        exact Nat.add_le_add (Nat.mul_le_mul harea (Nat.succ_le_succ hpairs)) hpeers
    _ < Word.bound := by decide

/-- Solves a puzzle as separate commands do: its canonical formula and the solution
    of that are written as texts and read back. -/
def solveThroughText (p : Puzzle) (options : Solver.Options) (interrupt : Solver.Interrupt)
    (log : Log) : Except (Failure Command.Error) Puzzle := do
  let f ← p.toFormula.mapError (Failure.map .sudoku)
  let f' ← (Dimacs.parse (.ofString f.simplify.render)).mapError fun cause => .error (.dimacs cause)
  let s ← (Solver.solve options interrupt f' log).result.mapError (Failure.map .structural)
  let s' ← (Solution.parse (.ofString s.render)).mapError (Failure.map .solution)
  (p.decode s').mapError (Failure.map .sudoku)

/-- With reductions, the texts in between make no difference, whenever the solve is
    told to give up. -/
theorem solveThroughText_eq (hp : p.WellFormed) {options : Solver.Options}
    (hpreprocess : options.preprocess = true) (interrupt : Solver.Interrupt) (log log' : Log) :
    p.solveThroughText options interrupt log =
      (p.solve options interrupt log').1.mapError (Failure.map .sudoku) := by
  obtain ⟨log'', hsolve⟩ := p.solve_fst options interrupt log'
  rw [hsolve, solveThroughText]
  obtain ⟨_, _, _, _, _, _, herror⟩ | ⟨_, hformula⟩ := toFormula_spec hp
  · rw [herror]
    rfl
  · obtain ⟨solution, hdirect, hformula', hsolution, hsolution'⟩ :=
      Solver.solve_through_text (wellFormed_rules hp) p.length_rules_lt
        (fun _ => nodup_of_mem_rules) hpreprocess interrupt log'' log
    simp only [hformula, hdirect, Except.mapError, bind, Except.bind, hformula', hsolution,
      hsolution']

/-- Writing and reading the formula and the solution in between makes no difference
    to how solving a puzzle ends: with the same board, or with the same report of a
    clash or of there being no solution. -/
theorem solveThroughText_agrees {b : Board} (hboard : ofBoard b = .ok p) (log log' : Log) :
    match (p.solve {} .never log').1 with
    | .ok t => p.solveThroughText {} .never log = .ok t
    | .error (.error cause) =>
      ((∃ row col otherRow otherCol digit,
          cause = .inconsistentPuzzle row col otherRow otherCol digit) ∨
        cause = .notSatisfiable .unsatisfiable) ∧
      p.solveThroughText {} .never log = .error (.error (.sudoku cause))
    | .error (.fault _) => False := by
  obtain ⟨_, hp⟩ := ofBoard_eq_ok_iff.mp hboard
  rw [solveThroughText_eq hp rfl .never log log']
  obtain ⟨_, row, col, otherRow, otherCol, digit, hresult⟩ | ⟨_, t, hresult, _⟩ | ⟨_, hresult, _⟩ :=
    solve_cases hp Solver.Interrupt.fires_never {} log'
  · rw [hresult]
    exact ⟨.inl ⟨row, col, otherRow, otherCol, digit, rfl⟩, rfl⟩
  · rw [hresult]
    rfl
  · rw [hresult]
    exact ⟨.inr rfl, rfl⟩

/-- A board with a solution, and one with a dead end. -/
theorem solveThroughText_agrees_of_boards :
    (∃ p t, ofBoard [[1, 0, 0, 0], [0, 0, 3, 0], [0, 4, 0, 0], [0, 0, 0, 2]] = .ok p ∧
      (p.solve {} .never (.empty none)).1 = .ok t ∧
      p.solveThroughText {} .never (.empty none) = .ok t) ∧
    ∃ p, ofBoard [[1, 2, 3, 0], [0, 0, 0, 4], [0, 0, 0, 0], [0, 0, 0, 0]] = .ok p ∧
      (p.solve {} .never (.empty none)).1 = .error (.error (.notSatisfiable .unsatisfiable)) ∧
      p.solveThroughText {} .never (.empty none) =
        .error (.error (.sudoku (.notSatisfiable .unsatisfiable))) := by
  constructor
  · obtain ⟨p, hboard, hclashes, hsome⟩ := exists_diagonal
    have hagrees := solveThroughText_agrees hboard (.empty none) (.empty none)
    obtain ⟨_, hp⟩ := ofBoard_eq_ok_iff.mp hboard
    obtain ⟨hclash, _⟩ | ⟨_, t, hresult, _⟩ | ⟨_, _, hnone⟩ :=
      solve_cases hp Solver.Interrupt.fires_never {} (.empty none)
    · exact absurd hclash hclashes
    · rw [hresult] at hagrees
      exact ⟨p, t, hboard, hresult, hagrees⟩
    · exact absurd hsome hnone
  · obtain ⟨p, hboard, hclashes, hnone⟩ := exists_deadEnd
    have hagrees := solveThroughText_agrees hboard (.empty none) (.empty none)
    obtain ⟨_, hp⟩ := ofBoard_eq_ok_iff.mp hboard
    obtain ⟨hclash, _⟩ | ⟨_, t, _, hsolved⟩ | ⟨_, hresult, _⟩ :=
      solve_cases hp Solver.Interrupt.fires_never {} (.empty none)
    · exact absurd hclash hclashes
    · exact absurd ⟨t, hsolved⟩ hnone
    · rw [hresult] at hagrees
      exact ⟨p, hboard, hresult, hagrees.2⟩

end Puzzle

end Sudoku

end Clausal
