import Clausal.Proofs.Sudoku.Board
import Clausal.Proofs.Text.Lines
import Clausal.Sudoku.Cell
import Mathlib.Logic.Equiv.Defs

namespace Clausal.Sudoku

namespace Cell

variable {n id : Nat} {c : Cell}

/-- The cell lies on the boards of an order, and its digit is one of theirs. -/
structure Within (c : Cell) (n : Nat) : Prop where
  row_lt : c.row < n ^ 2
  col_lt : c.col < n ^ 2
  one_le_digit : 1 ≤ c.digit
  digit_le : c.digit ≤ n ^ 2

instance (c : Cell) (n : Nat) : Decidable (c.Within n) :=
  decidable_of_iff (c.row < n ^ 2 ∧ c.col < n ^ 2 ∧ 1 ≤ c.digit ∧ c.digit ≤ n ^ 2)
    ⟨fun ⟨hrow, hcol, hone, hdigit⟩ => ⟨hrow, hcol, hone, hdigit⟩,
      fun h => ⟨h.row_lt, h.col_lt, h.one_le_digit, h.digit_le⟩⟩

/-- The exact number of a cell: the cells are counted from 1, row by row, in a row
    from column to column, and at one place from digit to digit. -/
def number (n : Nat) (c : Cell) : Nat := n ^ 4 * c.row + n ^ 2 * c.col + c.digit

/-- The cell with a given number. -/
def ofNumber (n id : Nat) : Cell :=
  ⟨(id - 1) / n ^ 4, (id - 1) / n ^ 2 % n ^ 2, (id - 1) % n ^ 2 + 1⟩

section Words

private theorem side_mul_side (n : Nat) : n ^ 2 * n ^ 2 = n ^ 4 := by ring

private theorem side_le_area (n : Nat) : n ^ 2 ≤ n ^ 4 :=
  side_mul_side n ▸ Nat.le_mul_self (n ^ 2)

/-- A cell is numbered exactly if the fourth power of the order and the number
    itself are words. Every product and sum on the way is at most one of them. -/
theorem variableId_eq_ok_iff :
    c.variableId n = .ok id ↔ n ^ 4 < Word.bound ∧ id < Word.bound ∧ c.number n = id := by
  have hle := side_le_area n
  simp only [variableId, bind_eq_ok_iff, Word.mul_eq_ok_iff, Word.add_eq_ok_iff, and_assoc,
    exists_and_left, exists_eq_left', ← Nat.pow_two n, side_mul_side, number]
  -- What is left of the steps is that the result of each of them is a word.
  omega

/-- A number has a cell exactly if the number and the order are positive and the
    fourth power of the order is a word. -/
theorem ofVariableId_eq_ok_iff :
    ofVariableId n id = .ok c ↔ 1 ≤ n ∧ n ^ 4 < Word.bound ∧ 1 ≤ id ∧ ofNumber n id = c := by
  have hle := side_le_area n
  simp only [ofVariableId, bind_eq_ok_iff, Word.mul_eq_ok_iff, Word.add_eq_ok_iff,
    Word.sub_eq_ok_iff, Word.div_eq_ok_iff, Word.mod_eq_ok_iff, and_assoc, exists_and_left,
    exists_eq_left', ← Nat.pow_two n, side_mul_side, pure, Except.pure, Except.ok.injEq]
  constructor
  · rintro ⟨_, harea, hone, _, hside, _, _, _, hcell⟩
    have hzero : n ≠ 0 := by
      rintro rfl
      exact hside rfl
    exact ⟨Nat.one_le_iff_ne_zero.mpr hzero, harea, hone, hcell⟩
  · rintro ⟨hpos, harea, hone, hcell⟩
    have hside : 0 < n ^ 2 := Nat.pow_pos hpos
    -- The sum in the digit is at most the square of the order.
    have hdigit := Nat.mod_lt (id - 1) hside
    exact ⟨by omega, harea, hone, by omega, by omega, by omega, by omega, by omega, hcell⟩

end Words

section Inverse

private theorem area_mul_side (n : Nat) : n ^ 4 * n ^ 2 = n ^ 6 := by ring

/-- Counted from 0, the number of a cell and a digit has the digit as its last place. -/
theorem number_sub_one (hdigit : 1 ≤ c.digit) :
    c.number n - 1 = n ^ 2 * (n ^ 2 * c.row + c.col) + (c.digit - 1) := by
  rw [number, ← side_mul_side, Nat.mul_assoc, ← Nat.mul_add]
  omega

/-- A number is that of the cell and digit it stands for. -/
theorem number_ofNumber (hone : 1 ≤ id) : (ofNumber n id).number n = id := by
  have hrow : n ^ 4 * ((id - 1) / n ^ 4) = n ^ 2 * (n ^ 2 * ((id - 1) / n ^ 2 / n ^ 2)) := by
    rw [Nat.div_div_eq_div_mul, ← Nat.mul_assoc, side_mul_side]
  have hplace := Nat.div_add_mod ((id - 1) / n ^ 2) (n ^ 2)
  have hdigit := Nat.div_add_mod (id - 1) (n ^ 2)
  simp only [number, ofNumber]
  rw [hrow, ← Nat.mul_add, hplace]
  omega

namespace Within

/-- Numbers are positive. -/
theorem one_le_number (h : c.Within n) : 1 ≤ c.number n :=
  Nat.le_trans h.one_le_digit (Nat.le_add_left _ _)

/-- Numbers do not go beyond the sixth power of the order. -/
theorem number_le (h : c.Within n) : c.number n ≤ n ^ 6 := by
  have hdigit := h.digit_le
  have hcol : n ^ 2 * (c.col + 1) ≤ n ^ 4 := side_mul_side n ▸ Nat.mul_le_mul_left _ h.col_lt
  have hrow : n ^ 4 * (c.row + 1) ≤ n ^ 6 := area_mul_side n ▸ Nat.mul_le_mul_left _ h.row_lt
  rw [Nat.mul_succ] at hcol hrow
  unfold number
  omega

/-- A cell and a digit are found again by their number. -/
theorem ofNumber_number (h : c.Within n) : ofNumber n (c.number n) = c := by
  have hside : 0 < n ^ 2 := Nat.zero_lt_of_lt h.col_lt
  have hdigit : c.digit - 1 < n ^ 2 := by
    have := h.one_le_digit
    have := h.digit_le
    omega
  have hplace : (c.number n - 1) / n ^ 2 = n ^ 2 * c.row + c.col := by
    rw [number_sub_one h.one_le_digit, Nat.mul_add_div hside, Nat.div_eq_of_lt hdigit,
      Nat.add_zero]
  have hrow : (c.number n - 1) / n ^ 4 = c.row := by
    rw [← side_mul_side, ← Nat.div_div_eq_div_mul, hplace, Nat.mul_add_div hside,
      Nat.div_eq_of_lt h.col_lt, Nat.add_zero]
  have hcol : (c.number n - 1) / n ^ 2 % n ^ 2 = c.col := by
    rw [hplace, Nat.mul_add_mod, Nat.mod_eq_of_lt h.col_lt]
  have hlast : (c.number n - 1) % n ^ 2 + 1 = c.digit := by
    rw [number_sub_one h.one_le_digit, Nat.mul_add_mod, Nat.mod_eq_of_lt hdigit,
      Nat.sub_add_cancel h.one_le_digit]
  rw [ofNumber, hrow, hcol, hlast]

end Within

/-- A number in range stands for a cell on the board and a digit. -/
theorem within_ofNumber (hone : 1 ≤ id) (hle : id ≤ n ^ 6) : (ofNumber n id).Within n := by
  have hpos : 1 ≤ n := Order.one_le_of_pow_pos (Nat.lt_of_lt_of_le hone hle)
  have hside : 0 < n ^ 2 := Nat.pow_pos hpos
  have hlt : id - 1 < n ^ 4 * n ^ 2 := by
    rw [area_mul_side]
    omega
  exact ⟨Nat.div_lt_of_lt_mul hlt, Nat.mod_lt _ hside, Nat.le_add_left 1 _, Nat.mod_lt _ hside⟩

/-- The cells of an order and the numbers up to its sixth power correspond. -/
def numbering (n : Nat) : {c : Cell // c.Within n} ≃ {id : Nat // 1 ≤ id ∧ id ≤ n ^ 6} where
  toFun c := ⟨c.val.number n, c.property.one_le_number, c.property.number_le⟩
  invFun id := ⟨ofNumber n id.val, within_ofNumber id.property.1 id.property.2⟩
  left_inv c := Subtype.ext c.property.ofNumber_number
  right_inv id := Subtype.ext (number_ofNumber id.property.1)

end Inverse

section Fitting

variable (hfits : n ^ 6 < Word.bound)
include hfits

/-- If the number of all cells is a word, then so is the fourth power of the
    order. -/
theorem area_lt : n ^ 4 < Word.bound := by
  refine Nat.lt_of_le_of_lt ?_ hfits
  rcases Nat.eq_zero_or_pos n with rfl | hpos
  · decide
  · exact Nat.pow_le_pow_right hpos (by decide)

/-- The number is computed in words without overflow. -/
theorem Within.variableId_eq (h : c.Within n) : c.variableId n = .ok (c.number n) :=
  variableId_eq_ok_iff.mpr ⟨area_lt hfits, Nat.lt_of_le_of_lt h.number_le hfits, rfl⟩

/-- The cell and the digit of a number in range are computed without overflow. -/
theorem ofVariableId_eq (hone : 1 ≤ id) (hle : id ≤ n ^ 6) :
    ofVariableId n id = .ok (ofNumber n id) := by
  have hpos : 1 ≤ n := Order.one_le_of_pow_pos (Nat.lt_of_lt_of_le hone hle)
  exact ofVariableId_eq_ok_iff.mpr ⟨hpos, area_lt hfits, hone, rfl⟩

end Fitting

/-- Numbering the cells of an order is a one-to-one correspondence with the numbers
    from 1 to the sixth power of the order, and finding the cell of a number is its
    inverse. Both computations succeed on all of their range, so no product, sum or
    difference on the way leaves the range of words. -/
theorem variableId_bijective {n : Nat} (hfits : n ^ 6 ≤ 2147483647) :
    ∃ e : {c : Cell // c.Within n} ≃ {id : Nat // 1 ≤ id ∧ id ≤ n ^ 6},
      (∀ (c : Cell) (h : c.Within n), c.variableId n = .ok (e ⟨c, h⟩).val) ∧
      ∀ (id : Nat) (h : 1 ≤ id ∧ id ≤ n ^ 6), ofVariableId n id = .ok (e.symm ⟨id, h⟩).val := by
  have hbound : n ^ 6 < Word.bound := Nat.lt_of_le_of_lt hfits (by decide)
  exact ⟨numbering n, fun _ h => h.variableId_eq hbound,
    fun _ h => ofVariableId_eq hbound h.1 h.2⟩

/-- At the largest order that fits, the last digit of the first place is followed by
    the first digit of the next one, and the last digit of the last place has the
    last number. -/
theorem variableId_bijective_of_largest_order :
    35 ^ 6 ≤ 2147483647 ∧ 2147483647 < 36 ^ 6 ∧
      ∃ e : {c : Cell // c.Within 35} ≃ {id : Nat // 1 ≤ id ∧ id ≤ 35 ^ 6},
        (e ⟨⟨0, 0, 1225⟩, by decide⟩).val = 1225 ∧
        (e.symm ⟨1226, by decide⟩).val = ⟨0, 1, 1⟩ ∧
        (e ⟨⟨1224, 1224, 1225⟩, by decide⟩).val = 35 ^ 6 := by
  obtain ⟨e, hid, hcell⟩ := variableId_bijective (show 35 ^ 6 ≤ 2147483647 by decide)
  exact ⟨by decide, by decide, e, Except.ok.inj (hid _ _).symm, Except.ok.inj (hcell _ _).symm,
    Except.ok.inj (hid _ _).symm⟩

end Cell

end Clausal.Sudoku
