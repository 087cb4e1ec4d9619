import Clausal.Proofs.Sudoku.Exactness
import Clausal.Proofs.Sudoku.Merging

namespace Clausal.Sudoku

namespace Grid

variable {o : Order}

/-- There is a valuation that describes the digits of a grid. -/
theorem exists_describes (g : Grid o) : ∃ v, g.Describes v := by
  refine ⟨fun x => decide (∃ place, x = o.variableAt place (g place)), fun place d => ?_⟩
  rw [decide_eq_true_iff]
  constructor
  · rintro ⟨a, ha⟩
    obtain ⟨rfl, rfl⟩ := Order.variableAt_injective ha
    rfl
  · rintro rfl
    exact ⟨place, rfl⟩

end Grid

namespace Puzzle

variable {p : Puzzle} {g : Grid p.order}

private theorem holds_mem_model {a : Assignment} (hnumVars : a.numVars = p.numVars)
    (hdescribes : g.Describes a.valuation) {place : p.order.Place} {d : Fin p.order.side} :
    p.order.holds place d ∈ a.model ↔ g place = d := by
  rw [Assignment.mem_model, Order.makes_holds, hdescribes, hnumVars]
  apply and_iff_right
  rw [Order.holds, Variable.var_literal]
  exact p.order.variable_le place d

/-- A model that describes a completion of the puzzle is decoded to its board. -/
theorem decode_eq (hp : p.WellFormed) (hcompleted : p.CompletedBy g) {a : Assignment}
    (hnumVars : a.numVars = p.numVars) (hdescribes : g.Describes a.valuation) :
    p.decode (.ofModel a.model) = .ok ⟨p.order, g.board⟩ := by
  refine (decode_eq_ok_iff hp).mpr ⟨fun l hl _ => ?_, rfl, ?_, fun place digit => ?_⟩
  · exact (Assignment.mem_model.mp hl).1.trans_eq hnumVars
  · exact ofBoard_eq_ok_iff.mpr ⟨rfl, wellFormed_grid g⟩
  · rw [g.square_board.get_eq place.1.isLt place.2.isLt, Grid.digitAt_board, Except.ok.injEq]
    constructor
    · rintro (⟨hne, rfl⟩ | ⟨d, rfl, hmem⟩)
      · exact ⟨hne, ((hcompleted place).resolve_left hne).symm⟩
      · rw [(holds_mem_model hnumVars hdescribes).mp hmem]
        exact ⟨Nat.succ_ne_zero _, rfl⟩
    · rintro ⟨_, rfl⟩
      exact .inr ⟨g place, rfl, (holds_mem_model hnumVars hdescribes).mpr rfl⟩

end Puzzle

end Clausal.Sudoku
