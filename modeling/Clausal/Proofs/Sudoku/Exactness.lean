import Clausal.Proofs.Sudoku.Encoding
import Mathlib.Tactic.Ring

namespace Clausal.Sudoku

namespace Grid

variable {o : Order} {g : Grid o} {v : Valuation}

/-- The valuation makes a variable true if and only if its place holds its
    digit. -/
def Describes (g : Grid o) (v : Valuation) : Prop :=
  ∀ place d, v (o.variableAt place d) = true ↔ g place = d

/-- The board of a grid shows the digits of the grid. -/
theorem get_board {place : o.Place} {d : Fin o.side} :
    Board.get g.board place.1 place.2 = .ok (d.val + 1) ↔ g place = d := by
  rw [g.square_board.get_eq place.1.isLt place.2.isLt, digitAt_board, Except.ok.injEq,
    Nat.succ_inj, Fin.val_inj]

/-- A valuation describes a grid if its variables say which cell of the board shows
    which digit. -/
theorem describes_iff : g.Describes v ↔
    ∀ row < o.side, ∀ col < o.side, ∀ digit, 1 ≤ digit → digit ≤ o.side →
      ∃ x : Variable, x.id = o.n ^ 4 * row + o.n ^ 2 * col + digit ∧
        (v x = true ↔ Board.get g.board row col = .ok digit) := by
  have hid (place : o.Place) (d : Fin o.side) : (o.variableAt place d).id =
      o.n ^ 4 * place.1 + o.n ^ 2 * place.2 + (d.val + 1) := by
    simp only [Order.variableAt, Order.side]
    ring
  constructor
  · intro h row hrow col hcol digit hone hdigit
    obtain ⟨d, rfl⟩ := Nat.exists_eq_add_of_le' hone
    refine ⟨o.variableAt (⟨row, hrow⟩, ⟨col, hcol⟩) ⟨d, hdigit⟩, hid _ _, ?_⟩
    rw [h, ← get_board]
  · intro h place d
    obtain ⟨x, hx, hvalue⟩ := h place.1 place.1.isLt place.2 place.2.isLt (d.val + 1)
      (Nat.succ_pos _) d.isLt
    rw [← get_board, ← hvalue, Variable.ext (hx.trans (hid place d).symm)]

end Grid

namespace Puzzle

variable {p q : Puzzle} {v : Valuation}

/-- The grid has the digit of every given. -/
def CompletedBy (p : Puzzle) (g : Grid p.order) : Prop := ∀ place, p.Allows place (g place)

instance (p : Puzzle) (g : Grid p.order) : Decidable (p.CompletedBy g) :=
  inferInstanceAs (Decidable (∀ _, _))

section Rules

private theorem satisfies_rules_iff_forall : v.Satisfies p.rules ↔
    (∀ place, ∃ l ∈ p.someAllowed place, v.Makes l) ∧
    (∀ place d e, (d, e) ∈ pairs (List.finRange p.order.side) →
      ∃ l ∈ p.order.notBothDigits (p.givenAt place) place (d, e), v.Makes l) ∧
    ∀ a b, (a, b) ∈ pairs p.order.places → p.order.sharesUnit a b = true →
      ∀ d, ∃ l ∈ p.order.notBothPlaces a b (p.givenAt a) (p.givenAt b) d, v.Makes l := by
  simp only [Valuation.Satisfies, rules, List.forall_mem_append, List.forall_mem_flatMap,
    List.forall_mem_cons, List.forall_mem_map]
  constructor
  · rintro ⟨hplaces, hpeers⟩
    refine ⟨?_, ?_, ?_⟩
    · exact fun place => (hplaces place (Order.mem_places place)).1
    · exact fun place d e => (hplaces place (Order.mem_places place)).2 (d, e)
    · intro a b hmem hshares d
      exact hpeers (a, b) (Order.mem_peers.mpr ⟨hmem, hshares⟩) d (List.mem_finRange d)
  · rintro ⟨hsome, hdigits, hpeers⟩
    refine ⟨fun place _ => ⟨hsome place, fun digits => hdigits place _ _⟩, ?_⟩
    intro pair hmem d _
    obtain ⟨hmem, hshares⟩ := Order.mem_peers.mp hmem
    exact hpeers _ _ hmem hshares d

/-- A satisfying valuation gives every place a digit it may hold and no second
    one, and different digits to places that share a row, column or box. -/
theorem satisfies_rules_iff : v.Satisfies p.rules ↔
    (∀ place, ∃ d, p.Allows place d ∧ v (p.order.variableAt place d) = true) ∧
    (∀ place d e, d ≠ e →
      ¬ (v (p.order.variableAt place d) = true ∧ v (p.order.variableAt place e) = true)) ∧
    ∀ a b, a ≠ b → p.order.sharesUnit a b = true → ∀ d,
      ¬ (v (p.order.variableAt a d) = true ∧ v (p.order.variableAt b d) = true) := by
  rw [satisfies_rules_iff_forall]
  simp only [makes_someAllowed]
  -- The shortened clauses of the other two families exclude too much unless the givens hold.
  apply and_congr_right
  intro hheld
  have hgiven (place : p.order.Place) (d : Fin p.order.side)
      (hd : p.order.shows (p.givenAt place) d = true) :
      v (p.order.variableAt place d) = true := by
    obtain ⟨e, he, htrue⟩ := hheld place
    simp only [Order.shows, beq_iff_eq] at hd
    have heq : e = d := Fin.ext (by simp only [Allows] at he; omega)
    rwa [← heq]
  apply and_congr
  · apply forall_congr'
    intro place
    simp only [Order.makes_notBothDigits (hgiven place)]
    exact forall_mem_pairs (List.nodup_finRange _) List.mem_finRange fun d e h h' => h h'.symm
  · simp only [Order.makes_notBothPlaces (hgiven _) (hgiven _)]
    apply forall_mem_pairs p.order.nodup_places Order.mem_places
    intro a b h hshares d hboth
    exact h (Order.sharesUnit_comm.trans hshares) d hboth.symm

/-- What satisfies the rules are the descriptions of legal grids that complete the
    puzzle. -/
theorem satisfies_rules_iff_exists_grid : v.Satisfies p.rules ↔
    ∃ g : Grid p.order, g.Legal ∧ p.CompletedBy g ∧ g.Describes v := by
  rw [satisfies_rules_iff]
  constructor
  · rintro ⟨hheld, hsingle, hapart⟩
    choose g hallows htrue using hheld
    have hdescribes : Grid.Describes g v := by
      intro place d
      constructor
      · intro hd
        by_contra hne
        exact hsingle place _ _ hne ⟨htrue place, hd⟩
      · rintro rfl
        exact htrue place
    refine ⟨g, ?_, hallows, hdescribes⟩
    intro a b hne hshares heq
    exact hapart a b hne hshares (g a) ⟨htrue a, (hdescribes b (g a)).mpr heq.symm⟩
  · rintro ⟨g, hlegal, hcompleted, hdescribes⟩
    refine ⟨?_, ?_, ?_⟩
    · exact fun place => ⟨g place, hcompleted place, (hdescribes place _).mpr rfl⟩
    · rintro place d e hne ⟨hd, he⟩
      exact hne (((hdescribes place d).mp hd).symm.trans ((hdescribes place e).mp he))
    · rintro a b hne hshares d ⟨ha, hb⟩
      exact hlegal a b hne hshares (((hdescribes a d).mp ha).trans ((hdescribes b d).mp hb).symm)

end Rules

/-- The second puzzle is a completely filled and solved one of the same order, in
    which the givens of the first are unchanged. -/
structure SolvedBy (p q : Puzzle) : Prop where
  order : q.order = p.order
  accepted : ofBoard q.board = .ok q
  filled : ∀ cells ∈ q.board, 0 ∉ cells
  solved : q.isSolved = .ok true
  givens : ∀ row col, p.board.digitAt row col ≠ 0 →
    q.board.digitAt row col = p.board.digitAt row col

/-- The solutions of a puzzle are the boards of legal grids that complete it. -/
theorem solvedBy_iff_exists_grid (hp : p.WellFormed) : p.SolvedBy q ↔
    ∃ g : Grid p.order, g.Legal ∧ p.CompletedBy g ∧ q = ⟨p.order, g.board⟩ := by
  constructor
  · rintro ⟨horder, haccepted, _, hsolved, hgivens⟩
    obtain ⟨o, b⟩ := q
    obtain rfl : o = p.order := horder
    obtain ⟨_, hq⟩ := ofBoard_eq_ok_iff.mp haccepted
    obtain ⟨g, hlegal, rfl⟩ : ∃ g : Grid p.order, g.Legal ∧ b = g.board :=
      (isSolved_iff_exists_grid hq.square).mp hsolved
    refine ⟨g, hlegal, fun place => ?_, rfl⟩
    by_cases hzero : p.givenAt place = 0
    · exact .inl hzero
    · exact .inr ((hgivens place.1 place.2 hzero).symm.trans (g.digitAt_board place))
  · rintro ⟨g, hlegal, hcompleted, rfl⟩
    have hq := wellFormed_grid g
    refine ⟨rfl, ofBoard_eq_ok_iff.mpr ⟨rfl, hq⟩, ?_, ?_, ?_⟩
    · intro cells hcells hzero
      obtain ⟨row, rfl⟩ := List.mem_ofFn.mp hcells
      obtain ⟨col, hcol⟩ := List.mem_ofFn.mp hzero
      exact Nat.succ_ne_zero _ hcol
    · exact (isSolved_iff_exists_grid hq.square).mpr ⟨g, hlegal, rfl⟩
    · intro row col hgiven
      obtain ⟨hrow, hcol⟩ : row < p.side ∧ col < p.side := by
        by_contra hout
        exact hgiven (hp.square.digitAt_eq_zero hout)
      rcases hcompleted (⟨row, hrow⟩, ⟨col, hcol⟩) with hzero | hdigit
      · exact absurd hzero hgiven
      · exact (g.digitAt_board (⟨row, hrow⟩, ⟨col, hcol⟩)).trans hdigit.symm

/-- The encoding is exact: the satisfying valuations of the formula of a puzzle are
    the descriptions of its solutions. -/
theorem satisfies_toFormula_iff {b : Board} {f : Formula} (hboard : ofBoard b = .ok p)
    (hformula : p.toFormula = .ok f) (v : Valuation) :
    v.Satisfies f.clauses ↔ ∃ q, p.SolvedBy q ∧
      ∀ row < p.side, ∀ col < p.side, ∀ digit, 1 ≤ digit → digit ≤ p.side →
        ∃ x : Variable, x.id = p.order.n ^ 4 * row + p.order.n ^ 2 * col + digit ∧
          (v x = true ↔ Board.get q.board row col = .ok digit) := by
  obtain ⟨_, hp⟩ := ofBoard_eq_ok_iff.mp hboard
  obtain ⟨-, _, _, _, _, _, herror⟩ | ⟨-, hok⟩ := toFormula_spec hp
  · rw [hformula] at herror
    cases herror
  · obtain rfl : f = Formula.ofParts p.numVars p.rules := by
      rw [hformula] at hok
      exact Except.ok.inj hok
    rw [show (Formula.ofParts p.numVars p.rules).clauses = p.rules from rfl,
      satisfies_rules_iff_exists_grid]
    constructor
    · rintro ⟨g, hlegal, hcompleted, hdescribes⟩
      exact ⟨_, (solvedBy_iff_exists_grid hp).mpr ⟨g, hlegal, hcompleted, rfl⟩,
        Grid.describes_iff.mp hdescribes⟩
    · rintro ⟨q, hsolved, hreads⟩
      obtain ⟨g, hlegal, hcompleted, rfl⟩ := (solvedBy_iff_exists_grid hp).mp hsolved
      exact ⟨g, hlegal, hcompleted, Grid.describes_iff.mpr hreads⟩

/-- A board with four different digits on its diagonal. -/
theorem satisfies_toFormula_iff_of_diagonal :
    ∃ p f, ofBoard [[1, 0, 0, 0], [0, 0, 3, 0], [0, 4, 0, 0], [0, 0, 0, 2]] = .ok p ∧
      p.toFormula = .ok f ∧ p.order.n = 2 ∧
      ∀ v : Valuation, v.Satisfies f.clauses ↔ ∃ q, p.SolvedBy q ∧
        ∀ row < p.side, ∀ col < p.side, ∀ digit, 1 ≤ digit → digit ≤ p.side →
          ∃ x : Variable, x.id = p.order.n ^ 4 * row + p.order.n ^ 2 * col + digit ∧
            (v x = true ↔ Board.get q.board row col = .ok digit) := by
  let p : Puzzle := ⟨⟨2, by decide, by decide⟩,
    [[1, 0, 0, 0], [0, 0, 3, 0], [0, 4, 0, 0], [0, 0, 0, 2]]⟩
  have hp : p.WellFormed := wellFormed_of_square ⟨rfl, by decide⟩ (by decide)
  have hboard : ofBoard p.board = .ok p := ofBoard_eq_ok_iff.mpr ⟨rfl, hp⟩
  have hclashes : ¬ p.Clashes := by decide
  obtain ⟨hclash, -⟩ | ⟨-, hformula⟩ := toFormula_spec hp
  · exact absurd hclash hclashes
  · exact ⟨p, _, hboard, hformula, rfl, satisfies_toFormula_iff hboard hformula⟩

end Puzzle

end Clausal.Sudoku
