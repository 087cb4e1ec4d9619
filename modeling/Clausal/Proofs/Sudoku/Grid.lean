import Clausal.Proofs.Sudoku.Units
import Clausal.Sudoku.Encoding
import Mathlib.Data.Fintype.Prod
import Mathlib.Data.List.Perm.Subperm

namespace Clausal

namespace Sudoku

/-- A digit for every place, given by its position in the list of digits. -/
abbrev Grid (o : Order) := o.Place → Fin o.side

namespace Grid

variable {o : Order}

/-- No two places that share a row, a column or a box hold the same digit. -/
def Legal (g : Grid o) : Prop :=
  ∀ a b, a ≠ b → o.sharesUnit a b = true → g a ≠ g b

instance (g : Grid o) : Decidable g.Legal :=
  inferInstanceAs (Decidable (∀ _ _, _))

/-- The board with the digits of the grid. -/
def board (g : Grid o) : Board :=
  List.ofFn fun row => List.ofFn fun col => (g (row, col)).val + 1

/-- The board of a grid is square. -/
theorem square_board (g : Grid o) : g.board.Square o.side := by
  refine ⟨by simp [board], fun cells hcells => ?_⟩
  obtain ⟨row, rfl⟩ := List.mem_ofFn.mp hcells
  exact List.length_ofFn

/-- The board of a grid shows the digits of the grid, counted from 1. -/
@[simp] theorem digitAt_board (g : Grid o) (place : o.Place) :
    g.board.digitAt place.1 place.2 = (g place).val + 1 := by
  have hrow : g.board[place.1.val]? = some (List.ofFn fun col => (g (place.1, col)).val + 1) := by
    simp [board]
  simp [Board.digitAt_of_getElem? hrow]

/-- The places of a unit are as many as the digits, so if no digit occurs twice
    then all of them occur. -/
theorem Legal.perm_range {g : Grid o} (h : g.Legal) {unit : List o.Place} (hunit : o.IsUnit unit) :
    (unit.map fun place => (g place).val + 1).Perm (List.range' 1 o.side) := by
  have hnodup : (unit.map fun place => (g place).val + 1).Nodup := by
    apply hunit.nodup.map_on
    intro a ha b hb hsame
    by_contra hne
    exact h a b hne (hunit.shares a ha b hb) (Fin.ext (Nat.succ.inj hsame))
  have hsubset : (unit.map fun place => (g place).val + 1) ⊆ List.range' 1 o.side := by
    intro d hd
    obtain ⟨place, _, rfl⟩ := List.mem_map.mp hd
    have hlt := (g place).isLt
    rw [List.mem_range'_1]
    omega
  apply (List.subperm_of_subset hnodup hsubset).perm_of_length_le
  rw [List.length_range', List.length_map, hunit.length]

end Grid

namespace Puzzle

variable {p : Puzzle}

/-- The digit at a place of a square board can be read. -/
theorem get_place (hsquare : p.board.Square p.side) (place : p.order.Place) :
    Board.get p.board place.1 place.2 = .ok (p.givenAt place) :=
  hsquare.get_eq place.1.isLt place.2.isLt

/-- A square board with digits in range makes a well-formed puzzle. -/
theorem wellFormed_of_square (hsquare : p.board.Square p.side)
    (hdigits : ∀ place, p.givenAt place ≤ p.side) : p.WellFormed := by
  refine ⟨hsquare, fun row col => ?_⟩
  by_cases hin : row < p.side ∧ col < p.side
  · exact hdigits (⟨row, hin.1⟩, ⟨col, hin.2⟩)
  · rw [hsquare.digitAt_eq_zero hin]
    exact Nat.zero_le _

/-- The board of a grid makes a well-formed puzzle. -/
theorem wellFormed_grid {o : Order} (g : Grid o) : (Puzzle.mk o g.board).WellFormed := by
  apply wellFormed_of_square g.square_board
  intro place
  exact le_of_eq_of_le (g.digitAt_board place) (g place).isLt

/-- A board with the digits of a grid is the board of the grid. -/
theorem board_eq_of_givenAt (hsquare : p.board.Square p.side) {g : Grid p.order}
    (hdigits : ∀ place, p.givenAt place = (g place).val + 1) : p.board = g.board := by
  apply hsquare.ext g.square_board
  intro row hrow col hcol
  exact (hdigits (⟨row, hrow⟩, ⟨col, hcol⟩)).trans
    (g.digitAt_board (⟨row, hrow⟩, ⟨col, hcol⟩)).symm

private theorem mergeSort_eq_range_iff {digits : List Nat} {count : Nat} :
    digits.mergeSort (fun d e => decide (d ≤ e)) = List.range' 1 count ↔
      digits.Perm (List.range' 1 count) := by
  constructor
  · intro h
    rw [← h]
    exact (List.mergeSort_perm digits _).symm
  · intro h
    have hsorted : (digits.mergeSort fun d e => decide (d ≤ e)).Pairwise
        fun d e => decide (d ≤ e) = true := by
      apply List.pairwise_mergeSort
      · intro a b c hab hbc
        simp only [decide_eq_true_eq] at hab hbc ⊢
        exact Nat.le_trans hab hbc
      · intro a b
        simpa using Nat.le_total a b
    refine List.Perm.eq_of_pairwise ?_ hsorted ?_ ((List.mergeSort_perm digits _).trans h)
    · intro a b _ _ hab hba
      exact Nat.le_antisymm (of_decide_eq_true hab) (of_decide_eq_true hba)
    · exact (List.pairwise_le_range' 1).imp decide_eq_true

/-- On a board with all its cells the check gives an answer. -/
theorem isSolved_eq (hsquare : p.board.Square p.side) :
    p.isSolved = .ok ((units p.order).all fun cells =>
      (cells.map fun cell => Board.digitAt p.board cell.1 cell.2).mergeSort
        (fun d e => decide (d ≤ e)) == List.range' 1 p.side) := by
  apply allM_eq_ok
  intro cells hcells
  obtain ⟨unit, _, rfl⟩ := Order.isUnit_of_mem_units hcells
  have hdigits : (unit.map Order.coordinates).mapM
      (fun cell => Board.get p.board cell.1 cell.2) = .ok (unit.map p.givenAt) := by
    rw [List.mapM_map]
    exact mapM_eq_ok fun place _ => get_place hsquare place
  rw [isComplete, hdigits, List.map_map]
  rfl

/-- The check of a puzzle goes through every unit and wants its digits to be all
    digits in some order. -/
private theorem isSolved_eq_ok_iff (hsquare : p.board.Square p.side) :
    p.isSolved = .ok true ↔ ∀ unit : List p.order.Place,
      unit.map Order.coordinates ∈ units p.order →
        (unit.map p.givenAt).Perm (List.range' 1 p.side) := by
  rw [isSolved_eq hsquare]
  simp only [Except.ok.injEq, List.all_eq_true, beq_iff_eq, mergeSort_eq_range_iff]
  constructor
  · intro h unit hunit
    have hperm := h _ hunit
    rwa [List.map_map] at hperm
  · intro h cells hcells
    obtain ⟨unit, _, rfl⟩ := Order.isUnit_of_mem_units hcells
    rw [List.map_map]
    exact h unit hcells

private theorem exists_grid_of_perm (hsquare : p.board.Square p.side)
    (hperm : ∀ unit : List p.order.Place, unit.map Order.coordinates ∈ units p.order →
      (unit.map p.givenAt).Perm (List.range' 1 p.order.side)) :
    ∃ g : Grid p.order, g.Legal ∧ p.board = g.board := by
  have hrange (place : p.order.Place) :
      1 ≤ p.givenAt place ∧ p.givenAt place < 1 + p.order.side := by
    obtain ⟨unit, hunit, hmem, _⟩ := Order.exists_unit_of_sharesUnit
      (Order.sharesUnit_iff.mpr (.inl rfl) : p.order.sharesUnit place place = true)
    have hdigit := (hperm unit hunit).mem_iff.mp (List.mem_map.mpr ⟨place, hmem, rfl⟩)
    exact List.mem_range'_1.mp hdigit
  have hdigit (place : p.order.Place) :
      ∃ d : Fin p.order.side, p.givenAt place = d.val + 1 := by
    obtain ⟨hone, hlt⟩ := hrange place
    exact ⟨⟨p.givenAt place - 1, by omega⟩, by simp only; omega⟩
  choose g hg using hdigit
  refine ⟨g, ?_, ?_⟩
  · intro a b hne hshares heq
    obtain ⟨unit, hunit, ha, hb⟩ := Order.exists_unit_of_sharesUnit hshares
    have hnodup : (unit.map p.givenAt).Nodup :=
      (hperm unit hunit).nodup_iff.mpr List.nodup_range'
    refine hne (List.inj_on_of_nodup_map hnodup ha hb ?_)
    rw [hg, hg, heq]
  · exact board_eq_of_givenAt hsquare hg

/-- The check accepts the boards of legal grids and no others. -/
theorem isSolved_iff_exists_grid (hsquare : p.board.Square p.side) :
    p.isSolved = .ok true ↔ ∃ g : Grid p.order, g.Legal ∧ p.board = g.board := by
  rw [isSolved_eq_ok_iff hsquare]
  constructor
  · exact exists_grid_of_perm hsquare
  · rintro ⟨g, hlegal, hboard⟩ unit hunit
    obtain ⟨unit', hisUnit, heq⟩ := Order.isUnit_of_mem_units hunit
    obtain rfl := List.map_injective_iff.mpr Order.coordinates_injective heq
    have hdigit : p.givenAt = fun place => (g place).val + 1 := by
      funext place
      rw [givenAt, hboard, Grid.digitAt_board]
    rw [hdigit]
    exact hlegal.perm_range hisUnit

end Puzzle

end Sudoku

end Clausal
