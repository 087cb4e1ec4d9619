import Clausal.Proofs.Sudoku.Cell
import Clausal.Proofs.Sudoku.Units

namespace Clausal.Sudoku

namespace Order

variable {o : Order}

/-- The number of variables is the sixth power of the order. -/
theorem numVars_eq_pow (o : Order) : o.numVars = o.n ^ 6 := by
  simp only [numVars, side]
  ring

/-- The number of variables is a word. -/
theorem pow_lt_bound (o : Order) : o.n ^ 6 < Word.bound := by
  have hle : o.n ^ 6 ≤ Variable.maxId := o.numVars_eq_pow ▸ o.numVars_le
  exact Nat.lt_of_le_of_lt hle (by decide)

/-- The cells of an order are its places with its digits. -/
theorem within_iff {c : Cell} : c.Within o.n ↔
    ∃ (place : o.Place) (d : Fin o.side), c = ⟨place.1, place.2, d.val + 1⟩ := by
  have hside : o.n ^ 2 = o.side := Nat.pow_two o.n
  constructor
  · rintro ⟨hrow, hcol, hone, hdigit⟩
    rw [hside] at hrow hcol hdigit
    refine ⟨(⟨c.row, hrow⟩, ⟨c.col, hcol⟩), ⟨c.digit - 1, by omega⟩, ?_⟩
    rw [Nat.sub_add_cancel hone]
  · rintro ⟨place, d, rfl⟩
    exact ⟨place.1.isLt.trans_eq hside.symm, place.2.isLt.trans_eq hside.symm,
      Nat.le_add_left 1 _, (Nat.succ_le_of_lt d.isLt).trans_eq hside.symm⟩

/-- A place and a digit are a cell on the board. -/
theorem within_place (place : o.Place) (d : Fin o.side) :
    Cell.Within ⟨place.1, place.2, d.val + 1⟩ o.n :=
  within_iff.mpr ⟨place, d, rfl⟩

/-- Their number as a cell is that of their variable. -/
theorem number_place (place : o.Place) (d : Fin o.side) :
    Cell.number o.n ⟨place.1, place.2, d.val + 1⟩ = (o.variableAt place d).id := by
  simp only [Cell.number, variableAt, side]
  ring

/-- The number of the variable is computed without overflow. -/
theorem variableId_eq (place : o.Place) (d : Fin o.side) :
    Cell.variableId ⟨place.1, place.2, d.val + 1⟩ o.n = .ok (o.variableAt place d).id := by
  rw [(within_place place d).variableId_eq o.pow_lt_bound, number_place]

/-- The place and the digit of a variable are computed without overflow. -/
theorem ofVariableId_eq (place : o.Place) (d : Fin o.side) :
    Cell.ofVariableId o.n (o.variableAt place d).id = .ok ⟨place.1, place.2, d.val + 1⟩ := by
  have hcell := within_place place d
  rw [← number_place, Cell.ofVariableId_eq o.pow_lt_bound hcell.one_le_number hcell.number_le,
    hcell.ofNumber_number]

/-- No two places and digits have the same variable. -/
theorem variableAt_injective {a b : o.Place} {d e : Fin o.side}
    (h : o.variableAt a d = o.variableAt b e) : a = b ∧ d = e := by
  have hcells := ofVariableId_eq a d
  rw [h, ofVariableId_eq, Except.ok.injEq, Cell.mk.injEq] at hcells
  obtain ⟨hrow, hcol, hdigit⟩ := hcells
  exact ⟨(place_ext hrow hcol).symm, Fin.ext (Nat.succ.inj hdigit).symm⟩

/-- Every variable stands for a place and a digit. -/
theorem exists_variableAt {x : Variable} (hx : x.id ≤ o.numVars) :
    ∃ place d, x = o.variableAt place d := by
  rw [numVars_eq_pow] at hx
  obtain ⟨place, d, hcell⟩ := within_iff.mp (Cell.within_ofNumber x.one_le hx)
  refine ⟨place, d, Variable.ext ?_⟩
  rw [← number_place, ← hcell, Cell.number_ofNumber x.one_le]

end Order

end Clausal.Sudoku
