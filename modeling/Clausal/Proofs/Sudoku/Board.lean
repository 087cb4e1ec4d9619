import Clausal.Proofs.Fault
import Clausal.Sudoku.Puzzle
import Mathlib.Data.Nat.Sqrt
import Mathlib.Tactic.Ring

namespace Clausal

namespace Sudoku

namespace Board

variable {b b' : Board} {side row col : Nat}

/-- The board has `side` rows of `side` cells. -/
structure Square (b : Board) (side : Nat) : Prop where
  rows : b.length = side
  cells : ∀ cells ∈ b, cells.length = side

/-- A square board has the row and it is long enough. -/
theorem Square.getElem? (h : b.Square side) (hrow : row < side) :
    ∃ cells, b[row]? = some cells ∧ cells.length = side := by
  have hlt : row < b.length := by rwa [h.rows]
  exact ⟨b[row], List.getElem?_eq_getElem hlt, h.cells _ (List.getElem_mem hlt)⟩

/-- The digit of a cell is looked up in its row. -/
theorem digitAt_of_getElem? {cells : List Nat} (h : b[row]? = some cells) (col : Nat) :
    b.digitAt row col = cells[col]?.getD 0 := by
  simp [digitAt, List.getD_eq_getElem?_getD, h]

/-- On a square board every cell can be read. -/
theorem Square.get_eq (h : b.Square side) (hrow : row < side) (hcol : col < side) :
    b.get row col = .ok (b.digitAt row col) := by
  obtain ⟨cells, hcells, hlength⟩ := h.getElem? hrow
  have hlt : col < cells.length := by rwa [hlength]
  simp [get, digitAt_of_getElem? hcells, hcells, hlt]

/-- Outside of a square board there are no digits. -/
theorem Square.digitAt_eq_zero (h : b.Square side) (hout : ¬ (row < side ∧ col < side)) :
    b.digitAt row col = 0 := by
  cases hcells : b[row]? with
  | none => simp [digitAt, List.getD_eq_getElem?_getD, hcells]
  | some cells =>
    have hrow : row < side := by
      rw [← h.rows]
      exact (List.getElem?_eq_some_iff.mp hcells).1
    have hlength := h.cells cells (List.mem_of_getElem? hcells)
    rw [digitAt_of_getElem? hcells, List.getElem?_eq_none (by omega)]
    rfl

/-- Square boards with the same digits are the same. -/
theorem Square.ext (h : b.Square side) (h' : b'.Square side)
    (hdigits : ∀ row < side, ∀ col < side, b.digitAt row col = b'.digitAt row col) : b = b' := by
  have hrows := h.rows
  apply List.ext_getElem (hrows.trans h'.rows.symm)
  intro row hrow hrow'
  have hcells := h.cells _ (List.getElem_mem hrow)
  have hcells' := h'.cells _ (List.getElem_mem hrow')
  apply List.ext_getElem (hcells.trans hcells'.symm)
  intro col hcol hcol'
  have hdigit := hdigits row (by omega) col (by omega)
  rw [digitAt_of_getElem? (List.getElem?_eq_getElem hrow),
    digitAt_of_getElem? (List.getElem?_eq_getElem hrow')] at hdigit
  simpa [hcol, hcol'] using hdigit

/-- The cells are filled if and only if there is a digit at every place. -/
theorem Square.filled_iff (h : b.Square side) : (∀ cells ∈ b, 0 ∉ cells) ↔
    ∀ row < side, ∀ col < side, b.digitAt row col ≠ 0 := by
  constructor
  · intro hfilled row hrow col hcol hzero
    obtain ⟨cells, hcells, hlength⟩ := h.getElem? hrow
    have hlt : col < cells.length := by rwa [hlength]
    rw [digitAt_of_getElem? hcells, List.getElem?_eq_getElem hlt, Option.getD_some] at hzero
    exact hfilled cells (List.mem_of_getElem? hcells) (hzero ▸ List.getElem_mem hlt)
  · intro hdigits cells hmem hzero
    obtain ⟨row, hcells⟩ := List.mem_iff_getElem?.mp hmem
    obtain ⟨col, hcol⟩ := List.mem_iff_getElem?.mp hzero
    have hrow := (List.getElem?_eq_some_iff.mp hcells).1
    have hlt := (List.getElem?_eq_some_iff.mp hcol).1
    rw [h.rows] at hrow
    rw [h.cells cells hmem] at hlt
    apply hdigits row hrow col hlt
    rw [digitAt_of_getElem? hcells, hcol, Option.getD_some]

/-- Replacing the digit of a cell changes that cell and no other. -/
theorem Square.put_spec (h : b.Square side) (hrow : row < side) (hcol : col < side)
    (digit : Nat) :
    ∃ b', b.put row col digit = .ok b' ∧ b'.Square side ∧
      ∀ r c, b'.digitAt r c = if r = row ∧ c = col then digit else b.digitAt r c := by
  refine ⟨b.modify row fun cells => cells.set col digit, ?_, ⟨by simpa using h.rows, ?_⟩, ?_⟩
  · simp [put, h.get_eq hrow hcol, bind, Except.bind, pure, Except.pure]
  · intro cells hcells
    obtain ⟨i, hi, rfl⟩ := List.mem_iff_getElem.mp hcells
    rw [List.length_modify] at hi
    rw [List.getElem_modify]
    split
    · simpa using h.cells _ (List.getElem_mem hi)
    · exact h.cells _ (List.getElem_mem hi)
  · intro r c
    by_cases hr : r = row
    · subst hr
      obtain ⟨cells, hcells, hlength⟩ := h.getElem? hrow
      have hmodified : (b.modify r fun cells => cells.set col digit)[r]? =
          some (cells.set col digit) := by simp [hcells]
      rw [digitAt_of_getElem? hmodified, digitAt_of_getElem? hcells]
      by_cases hc : c = col
      · subst hc
        simp [hlength, hcol]
      · simp [hc, List.getElem?_set_ne (Ne.symm hc)]
    · simp [digitAt, List.getD_eq_getElem?_getD, hr, Ne.symm hr]

/-- The cells that are listed are those with a digit. -/
theorem mem_filled {digit : Nat} : (row, col, digit) ∈ b.filled ↔
    digit ≠ 0 ∧ ∃ cells, b[row]? = some cells ∧ cells[col]? = some digit := by
  simp only [filled, List.mem_flatMap, List.mem_filterMap, Prod.exists,
    List.mk_mem_zipIdx_iff_getElem?]
  constructor
  · rintro ⟨cells, i, hcells, d, j, hd, heq⟩
    split at heq
    · cases heq
    · cases heq
      exact ⟨‹_›, cells, hcells, hd⟩
  · rintro ⟨hdigit, cells, hcells, hcol⟩
    exact ⟨cells, row, hcells, digit, col, hcol, if_neg hdigit⟩

end Board

namespace Order

theorem one_le_of_pow_pos {n : Nat} (h : 0 < n ^ 6) : 1 ≤ n := by
  rcases Nat.eq_zero_or_pos n with rfl | hpos
  · cases h
  · exact hpos

/-- There is at least one row. -/
theorem side_pos (o : Order) : 0 < o.side := Nat.mul_pos o.pos o.pos

/-- The variables of a puzzle can be numbered. -/
theorem numVars_le (o : Order) : o.numVars ≤ Variable.maxId := o.fits

/-- The cells of a board are no more than there can be variables. -/
theorem area_le (o : Order) : o.side * o.side ≤ Variable.maxId :=
  Nat.le_trans (Nat.le_mul_of_pos_right _ o.side_pos) o.numVars_le

/-- The number of rows is computed without overflow. -/
theorem mul_n_n (o : Order) : Word.mul o.n o.n = .ok o.side :=
  Word.mul_of_le (Nat.le_trans (Nat.le_mul_of_pos_right _ o.side_pos) o.area_le)

/-- An order is found by its number. -/
theorem ofNat_eq_ok_iff {n : Nat} {o : Order} : ofNat n = .ok o ↔ o.n = n := by
  constructor
  · intro h
    unfold ofNat at h
    split at h
    · split at h
      · cases h
      · split at h
        · cases h
        · split at h
          · cases h
            rfl
          · cases h
    · cases h
  · rintro rfl
    have harea : o.n * o.n * (o.n * o.n) ≤ Variable.maxId := o.area_le
    simp only [ofNat, dif_pos o.pos, Word.mul_of_le harea, Word.mul_of_le o.fits, dif_pos o.fits]

/-- If the number of variables is a word, then so is every product on the way to
    it. -/
theorem ofNat_of_lt {n : Nat} (hpos : 1 ≤ n) (h : n * n * (n * n) * (n * n) < Word.bound) :
    ofNat n = if hfits : n * n * (n * n) * (n * n) ≤ 2147483647 then .ok ⟨n, hpos, hfits⟩
      else .error (.error (.invalidOrder n)) := by
  have hside : 0 < n * n := Nat.mul_pos hpos hpos
  have harea : Word.mul (n * n) (n * n) = .ok (n * n * (n * n)) :=
    Word.mul_eq_ok_iff.mpr ⟨Nat.lt_of_le_of_lt (Nat.le_mul_of_pos_right _ hside) h, rfl⟩
  have hnumVars : Word.mul (n * n * (n * n)) (n * n) = .ok (n * n * (n * n) * (n * n)) :=
    Word.mul_eq_ok_iff.mpr ⟨h, rfl⟩
  simp only [ofNat, dif_pos hpos, harea, hnumVars]

end Order

namespace Puzzle

/-- What is checked about the board of a puzzle. -/
structure WellFormed (p : Puzzle) : Prop where
  square : p.board.Square p.side
  digits : ∀ row col, p.board.digitAt row col ≤ p.side

private theorem find?_length_eq_none {b : Board} {side : Nat} :
    (b.zipIdx.find? fun (cells, _) => cells.length != side) = none ↔
      ∀ cells ∈ b, cells.length = side := by
  simp only [List.find?_eq_none, Prod.forall, bne_iff_ne, ne_eq, Decidable.not_not]
  constructor
  · intro h cells hcells
    obtain ⟨row, hrow⟩ := List.mem_iff_getElem?.mp hcells
    exact h cells row (List.mk_mem_zipIdx_iff_getElem?.mpr hrow)
  · intro h cells row hmem
    exact h cells (List.fst_mem_of_mem_zipIdx hmem)

private theorem find?_digit_eq_none {b : Board} {side : Nat} :
    (b.filled.find? fun (_, _, digit) => decide (side < digit)) = none ↔
      ∀ row col, b.digitAt row col ≤ side := by
  simp only [List.find?_eq_none, Prod.forall, Board.mem_filled, decide_eq_true_eq, Nat.not_lt]
  constructor
  · intro h row col
    cases hcells : b[row]? with
    | none => simp [Board.digitAt, List.getD_eq_getElem?_getD, hcells]
    | some cells =>
      rw [Board.digitAt_of_getElem? hcells]
      cases hdigit : cells[col]? with
      | none => exact Nat.zero_le side
      | some digit =>
        by_cases hzero : digit = 0
        · exact hzero ▸ Nat.zero_le side
        · exact h row col digit ⟨hzero, cells, hcells, hdigit⟩
  · rintro h row col digit ⟨_, cells, hcells, hdigit⟩
    have hle := h row col
    rwa [Board.digitAt_of_getElem? hcells, hdigit] at hle

/-- A board makes a puzzle if that is well formed. -/
theorem ofBoard_eq_ok_iff {b : Board} {p : Puzzle} :
    ofBoard b = .ok p ↔ p.board = b ∧ p.WellFormed := by
  constructor
  · intro h
    cases hmul : Word.mul b.length.sqrt b.length.sqrt with
    | error reason =>
      simp only [ofBoard, hmul] at h
      cases h
    | ok square =>
      simp only [ofBoard, hmul, bind, Except.bind, liftM, monadLift, MonadLift.monadLift, throw,
        throwThe, MonadExceptOf.throw, pure, Except.pure] at h
      split at h
      · cases h
      · rename_i hsquare
        split at h
        · cases h
        · rename_i order horder
          split at h
          · cases h
          · rename_i hcells
            split at h
            · cases h
            · rename_i hdigits
              cases h
              have hside : order.side = b.length := by
                rw [Order.side, Order.ofNat_eq_ok_iff.mp horder, (Word.mul_eq_ok_iff.mp hmul).2]
                exact Decidable.not_not.mp hsquare
              refine ⟨rfl, ⟨hside.symm, ?_⟩, ?_⟩
              · exact fun cells hmem => (find?_length_eq_none.mp hcells cells hmem).trans hside.symm
              · intro row col
                exact le_of_le_of_eq (find?_digit_eq_none.mp hdigits row col) hside.symm
  · rintro ⟨rfl, hwellFormed⟩
    obtain ⟨order, b⟩ := p
    obtain ⟨⟨hrows, hcells⟩, hdigits⟩ := hwellFormed
    dsimp only at hrows hcells hdigits ⊢
    have hside : b.length = order.n * order.n := hrows
    have hsqrt : b.length.sqrt = order.n := by rw [hside, Nat.sqrt_eq]
    have hfind := find?_length_eq_none.mpr hcells
    have hfind' := find?_digit_eq_none.mpr hdigits
    simp only [side, Order.side, ← hside] at hfind hfind'
    have hmul : Word.mul order.n order.n = .ok b.length := by rw [order.mul_n_n, hrows, side]
    simp only [ofBoard, hsqrt, hmul, Order.ofNat_eq_ok_iff.mpr rfl, hfind, hfind', bind,
      Except.bind, liftM, monadLift, MonadLift.monadLift, ne_eq, not_true, if_false]
    rfl

end Puzzle

end Sudoku

end Clausal
