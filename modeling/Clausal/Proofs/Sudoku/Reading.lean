import Clausal.Proofs.Sudoku.Notation

namespace Clausal

namespace Sudoku

open Text

/-- The order is checked without overflow if the number of variables is a word. -/
theorem Order.faultless_ofNat {n : Nat} (h : (n * n) ^ 3 < Word.bound) : Faultless (ofNat n) := by
  rw [pow_three'] at h
  by_cases hpos : 1 ≤ n
  · rw [ofNat_of_lt hpos h]
    split
    · exact .ok _
    · exact .error _
  · rw [ofNat, dif_neg hpos]
    exact .error _

namespace Puzzle

variable {p : Puzzle} {n : Nat} {digits : List Nat} {text : List Char}

/-- The order of a board is the root of its number of rows, so that no product of it
    exceeds the cube of that number. -/
theorem faultless_ofBoard {b : Board} (h : b.length ^ 3 < Word.bound) : Faultless (ofBoard b) := by
  have hle : b.length.sqrt * b.length.sqrt ≤ b.length := Nat.sqrt_le b.length
  have hlength : b.length ≤ b.length ^ 3 := Nat.le_self_pow (by decide) _
  have hmul : Word.mul b.length.sqrt b.length.sqrt = .ok (b.length.sqrt * b.length.sqrt) :=
    Word.mul_eq_ok_iff.mpr ⟨Nat.lt_of_le_of_lt (Nat.le_trans hle hlength) h, rfl⟩
  have horder : Faultless (Order.ofNat b.length.sqrt) :=
    Order.faultless_ofNat (Nat.lt_of_le_of_lt (Nat.pow_le_pow_left hle 3) h)
  simp only [ofBoard, hmul]
  refine .bind (.ok _) fun square _ => ?_
  split
  · exact .error _
  · refine horder.bind fun order _ => ?_
    split
    · exact .error _
    · split
      · exact .error _
      · exact .ok _

/-- Reading digits meets no fault. -/
theorem faultless_readDigits (cells : List Char) : Faultless (readDigits cells) := by
  refine .mapM fun token _ => ?_
  split
  · exact .ok _
  · exact .error _

/-- Every piece between hyphens is read as one digit. -/
theorem length_of_readDigits {cells : List Char} (h : readDigits cells = .ok digits) :
    digits ≠ [] ∧ digits.length ≤ cells.length + 1 := by
  have hlength : digits.length = (cells.splitOn '-').length := length_of_mapM h
  constructor
  · rw [← List.length_pos_iff, hlength, List.length_pos_iff]
    exact List.splitOn_ne_nil _ _
  · rw [hlength]
    exact length_splitOn_le _ _

/-- There is at least one digit, so that an order of 0 is rejected by the number of
    digits before they are cut into rows. For any other order the number of rows is
    the root of the number of digits. -/
theorem faultless_ofDigits (hbound : n * n * (n * n) < Word.bound) (hne : digits ≠ [])
    (hlength : digits.length < 2 ^ 40) : Faultless (ofDigits n digits) := by
  rw [ofDigits_eq hbound]
  split
  · rename_i harea
    have hside : n * n ≠ 0 := by
      intro hzero
      rw [hzero, Nat.zero_mul, List.length_eq_zero_iff] at harea
      exact hne harea
    have hroot : n * n < 2 ^ 20 := by
      refine Nat.mul_self_lt_mul_self_iff.mp ?_
      rw [← harea]
      exact hlength
    rw [cut, if_neg hside]
    refine faultless_ofBoard ?_
    rw [length_chunks_of_square harea]
    calc (n * n) ^ 3 < (2 ^ 20) ^ 3 := Nat.pow_lt_pow_left hroot (by decide)
      _ < Word.bound := by decide
  · exact .error _

/-- Reading a line of fewer than 2⁴⁰ characters meets no fault. -/
theorem faultless_ofLine (hlength : text.length < 2 ^ 40) : Faultless (ofLine text) := by
  simp only [ofLine]
  split
  · exact .error _
  · rename_i order cells hsplit
    obtain ⟨_, _, _, htrim⟩ := splitAtBlank?_eq_some_iff.mp hsplit
    split
    · exact .error _
    · split
      · exact .error _
      · rename_i n _ hbound
        refine (faultless_readDigits _).bind fun digits hdigits => ?_
        obtain ⟨hne, hle⟩ := length_of_readDigits hdigits
        refine faultless_ofDigits (Nat.not_le.mp hbound) hne ?_
        have hcells := length_trim_le cells
        have htext := length_trim_le text
        rw [htrim, List.length_append, List.length_cons] at htext
        omega

/-- The order of a puzzle that is read is the number in the first field of its line. -/
theorem order_of_ofLine (h : ofLine text = .ok p) :
    ∃ order, (fields text).head? = some order ∧ Numeral.Unsigned order p.order.n := by
  obtain ⟨order, cells, n, digits, hsplit, hn, _, _, hlength, hboard⟩ := ofLine_eq_ok_iff.mp h
  obtain ⟨hunbroken, c, hc, htrim⟩ := splitAtBlank?_eq_some_iff.mp hsplit
  obtain ⟨horder, _⟩ := Numeral.readWord_eq_ok_iff.mp hn
  have htoken : IsToken order := ⟨horder.nonempty, hunbroken⟩
  have hside : p.order.n * p.order.n = n * n := by
    obtain ⟨hrows, hp⟩ := ofBoard_eq_ok_iff.mp hboard
    rw [← length_chunks_of_square hlength, ← hrows]
    exact hp.square.rows.symm
  refine ⟨order, ?_, Nat.mul_self_inj.mp hside ▸ horder⟩
  rw [← fields_trim, htrim, fields_append_blank hc, htoken.fields_eq]
  rfl

/-- Reading a line of less than 2⁴⁰ bytes never leaves the range of words and never
    cuts digits into empty rows: it gives a puzzle or reports what is wrong with the
    line. A puzzle that is read has the order that is written in front and a board
    of that order, and its variables can be numbered. -/
theorem ofLine_faultless_and_valid (line : String) (hsize : line.utf8ByteSize < 2 ^ 40) :
    Faultless (ofLine line.toList) ∧
      ∀ p, ofLine line.toList = .ok p →
        (∃ order, (fields line.toList).head? = some order ∧ Numeral.Unsigned order p.order.n) ∧
        1 ≤ p.order.n ∧ p.board.length = p.order.n ^ 2 ∧
        (∀ row ∈ p.board, row.length = p.order.n ^ 2 ∧ ∀ digit ∈ row, digit ≤ p.order.n ^ 2) ∧
        p.order.n ^ 6 < 2 ^ 31 := by
  constructor
  · exact faultless_ofLine (Nat.lt_of_le_of_lt (length_le_utf8ByteSize line) hsize)
  · intro p h
    have hp := wellFormed_of_ofLine h
    have hside : p.order.n ^ 2 = p.side := Nat.pow_two _
    have hnumVars : p.order.n ^ 6 = p.order.numVars := by
      rw [Order.numVars, ← pow_three', Order.side, ← Nat.pow_two, ← Nat.pow_mul]
    rw [hside, hnumVars]
    refine ⟨order_of_ofLine h, p.order.pos, hp.square.rows, fun row hrow => ?_, ?_⟩
    · refine ⟨hp.square.cells row hrow, fun digit hdigit => ?_⟩
      exact hp.digit_le (List.mem_flatten_of_mem hrow hdigit)
    · exact Nat.lt_succ_of_le p.order.numVars_le

/-- The order and a digit have plus signs, and tabs surround the order. An order of 0
    has no cells, and the cells of an order of 2¹⁶ are too many to be counted. -/
theorem ofLine_faultless_and_valid_of_extreme_orders :
    (∃ p, ofLine "\t+02\t1-0-0-0-0-0-+3-0-0-4-0-0-0-0-0-2 ".toList = .ok p ∧
      p.board = [[1, 0, 0, 0], [0, 0, 3, 0], [0, 4, 0, 0], [0, 0, 0, 2]] ∧
      p.board.length = p.order.n ^ 2 ∧ p.order.n ^ 6 < 2 ^ 31) ∧
    Faultless (ofLine "0 0".toList) ∧ Faultless (ofLine "65536 0".toList) := by
  refine ⟨?_, (ofLine_faultless_and_valid "0 0" (by decide)).1,
    (ofLine_faultless_and_valid "65536 0" (by decide)).1⟩
  let p : Puzzle :=
    ⟨⟨2, by decide, by decide⟩, [[1, 0, 0, 0], [0, 0, 3, 0], [0, 4, 0, 0], [0, 0, 0, 2]]⟩
  have hp : p.WellFormed := wellFormed_of_square ⟨rfl, by decide⟩ (by decide)
  have hline : ofLine "\t+02\t1-0-0-0-0-0-+3-0-0-4-0-0-0-0-0-2 ".toList = .ok p :=
    ofLine_eq_ok_iff.mpr ⟨"+02".toList, "1-0-0-0-0-0-+3-0-0-4-0-0-0-0-0-2".toList, 2,
      p.board.flatten, rfl, rfl, by decide, rfl, rfl, hp.ofBoard_chunks⟩
  obtain ⟨_, _, hrows, _, hfits⟩ := (ofLine_faultless_and_valid _ (by decide)).2 p hline
  exact ⟨p, hline, rfl, hrows, hfits⟩

end Puzzle

end Sudoku

end Clausal
