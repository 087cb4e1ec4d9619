import Clausal.Proofs.Sudoku.Board

namespace Clausal.Sudoku

variable {n : Nat}

namespace Order

private theorem product_eq_pow (n : Nat) : n * n * (n * n) * (n * n) = n ^ 6 := by ring

/-- A number of variables that is no word is not compared with the limit, because
    its computation overflows. -/
theorem ofNat_of_overflow (h : Word.bound ≤ n ^ 6) : ofNat n = .error (.fault .overflow) := by
  have hpos : 1 ≤ n := one_le_of_pow_pos (Nat.lt_of_lt_of_le (by decide : 0 < Word.bound) h)
  by_cases harea : n * n * (n * n) < Word.bound
  · have hmul : Word.mul (n * n) (n * n) = .ok (n * n * (n * n)) :=
      Word.mul_eq_ok_iff.mpr ⟨harea, rfl⟩
    have hmul' : Word.mul (n * n * (n * n)) (n * n) = .error .overflow :=
      if_neg (by rw [product_eq_pow]; exact Nat.not_lt.mpr h)
    simp only [ofNat, dif_pos hpos, hmul, hmul']
  · have hmul : Word.mul (n * n) (n * n) = .error .overflow := if_neg harea
    simp only [ofNat, dif_pos hpos, hmul]

/-- There is an order for every positive number whose variables can be numbered. -/
theorem ofNat_of_fits (hpos : 1 ≤ n) (hfits : n ^ 6 ≤ 2147483647) :
    ∃ o : Order, o.n = n ∧ ofNat n = .ok o := by
  rw [← product_eq_pow] at hfits
  exact ⟨⟨n, hpos, hfits⟩, rfl, ofNat_eq_ok_iff.mpr rfl⟩

/-- The number 0 and those with too many variables are rejected if the number of
    variables is a word. -/
theorem ofNat_of_excess (h : n = 0 ∨ 2147483647 < n ^ 6 ∧ n ^ 6 < Word.bound) :
    ofNat n = .error (.error (.invalidOrder n)) := by
  rcases h with rfl | ⟨hexcess, hbound⟩
  · rfl
  · have hpos : 1 ≤ n := one_le_of_pow_pos (Nat.zero_lt_of_lt hexcess)
    rw [← product_eq_pow] at hexcess hbound
    rw [ofNat_of_lt hpos hbound, dif_neg (Nat.not_le.mpr hexcess)]

end Order

namespace Board

/-- A blank board is square. -/
theorem square_blank (side : Nat) : (blank side).Square side := by
  refine ⟨List.length_replicate, fun cells hcells => ?_⟩
  rw [List.eq_of_mem_replicate hcells, List.length_replicate]

/-- A blank board holds no digit. -/
theorem eq_zero_of_mem_blank {side digit : Nat} {row : List Nat} (hrow : row ∈ blank side)
    (hdigit : digit ∈ row) : digit = 0 := by
  rw [List.eq_of_mem_replicate hrow] at hdigit
  exact List.eq_of_mem_replicate hdigit

/-- Every cell of a blank board is blank. -/
theorem digitAt_blank (side row col : Nat) : (blank side).digitAt row col = 0 := by
  by_cases hin : row < side ∧ col < side
  · simp [digitAt, blank, hin]
  · exact (square_blank side).digitAt_eq_zero hin

end Board

namespace Puzzle

/-- A blank board of an order makes a well-formed puzzle. -/
theorem wellFormed_blank (o : Order) : (Puzzle.mk o (Board.blank o.side)).WellFormed :=
  ⟨Board.square_blank o.side, fun row col =>
    Nat.le_trans (Nat.le_of_eq (Board.digitAt_blank o.side row col)) (Nat.zero_le _)⟩

/-- A board that can be addressed is only built if there is such an order. -/
theorem blank_of_lt (h : n < 619925132) :
    blank n = (Order.ofNat n).map fun order => ⟨order, Board.blank (n * n)⟩ := by
  have hside : n * n ≤ 619925131 * 619925131 :=
    Nat.mul_self_le_mul_self (Nat.le_of_lt_succ h)
  have hmul : Word.mul n n = .ok (n * n) := if_pos (by simp only [Word.bound]; omega)
  have hcells : Word.checkTable (n * n) 8 = .ok () :=
    if_pos (by simp only [Word.maxTableBytes]; omega)
  have hrows : Word.checkTable (n * n) 24 = .ok () :=
    if_pos (by simp only [Word.maxTableBytes]; omega)
  simp only [blank, hmul, hcells, hrows, bind, Except.bind, liftM, monadLift,
    MonadLift.monadLift]
  cases Order.ofNat n <;> rfl

/-- The cells of one row may still be addressed where the table of the rows is not. -/
theorem blank_of_ge (h : 619925132 ≤ n) :
    blank n = .error (.fault (if n < 2 ^ 32 then .capacity else .overflow)) := by
  by_cases hword : n < 2 ^ 32
  · have hbelow : n * n < 2 ^ 64 := Nat.mul_self_lt_mul_self hword
    have habove : 619925132 * 619925132 ≤ n * n := Nat.mul_self_le_mul_self h
    have hmul : Word.mul n n = .ok (n * n) := if_pos (by simp only [Word.bound]; omega)
    have hrows : Word.checkTable (n * n) 24 = .error .capacity :=
      if_neg (by simp only [Word.maxTableBytes]; omega)
    simp only [blank, hmul, hrows, if_pos hword, bind, Except.bind, liftM, monadLift,
      MonadLift.monadLift]
    by_cases hcells : n * n * 8 ≤ Word.maxTableBytes
    · simp only [Word.checkTable, if_pos hcells]
    · simp only [Word.checkTable, if_neg hcells]
  · have habove : 2 ^ 64 ≤ n * n := Nat.mul_self_le_mul_self (Nat.le_of_not_gt hword)
    have hmul : Word.mul n n = .error .overflow := if_neg (by simp only [Word.bound]; omega)
    simp only [blank, hmul, if_neg hword, bind, Except.bind, liftM, monadLift,
      MonadLift.monadLift]

private theorem lt_of_pow_lt (h : n ^ 6 < Word.bound) : n < 619925132 := by
  refine lt_of_pow_lt_pow_left₀ 6 (Nat.zero_le _) (Nat.lt_of_lt_of_le h ?_)
  decide

/-- Where the number of variables is no word, either the number of rows is none
    either, or no table can hold the rows, or the number of variables overflows. -/
theorem blank_of_overflow (h : Word.bound ≤ n ^ 6) : blank n =
    .error (.fault (if 619925132 ≤ n ∧ n < 2 ^ 32 then .capacity else .overflow)) := by
  by_cases hsmall : n < 619925132
  · rw [blank_of_lt hsmall, Order.ofNat_of_overflow h, if_neg fun hlarge => absurd hsmall
      (Nat.not_lt.mpr hlarge.1)]
    rfl
  · rw [blank_of_ge (Nat.le_of_not_gt hsmall)]
    simp only [Nat.le_of_not_gt hsmall, true_and]

/-- Orders that are rejected are rejected for blank puzzles as well. -/
theorem blank_of_excess (h : n = 0 ∨ 2147483647 < n ^ 6 ∧ n ^ 6 < Word.bound) :
    blank n = .error (.error (.invalidOrder n)) := by
  have hsmall : n < 619925132 := by
    rcases h with rfl | ⟨_, hbound⟩
    · decide
    · exact lt_of_pow_lt hbound
  rw [blank_of_lt hsmall, Order.ofNat_of_excess h]
  rfl

/-- There is a blank puzzle of every order. -/
theorem blank_of_fits (hpos : 1 ≤ n) (hfits : n ^ 6 ≤ 2147483647) :
    ∃ o : Order, o.n = n ∧ blank n = .ok ⟨o, Board.blank o.side⟩ := by
  obtain ⟨o, rfl, ho⟩ := Order.ofNat_of_fits hpos hfits
  refine ⟨o, rfl, ?_⟩
  rw [blank_of_lt (lt_of_pow_lt (Nat.lt_of_le_of_lt hfits (by decide))), ho]
  rfl

/-- A blank puzzle has the order that is asked for and an empty board of that order,
    which passes the checks of boards. There is one for every order whose variables
    can be numbered. The order 0 is rejected, and so is an order with too many
    variables if their number is a word. For larger orders the computation of that
    number, or the attempt to lay out the board, stops at a fault: from 619925132 on no
    table can hold the rows, and from 2³² on their number is no word. -/
theorem blank_exact (n : Nat) :
    (blank n = .error (.error (.invalidOrder n)) ↔
      n = 0 ∨ 2147483647 < n ^ 6 ∧ n ^ 6 < 2 ^ 64) ∧
    ((∃ p, blank n = .ok p) ↔ 1 ≤ n ∧ n ^ 6 ≤ 2147483647) ∧
    (∀ p, blank n = .ok p → p.order.n = n ∧ p.board.length = n ^ 2 ∧
      (∀ row ∈ p.board, row.length = n ^ 2 ∧ ∀ digit ∈ row, digit = 0) ∧
      ofBoard p.board = .ok p) ∧
    (blank n = .error (.fault (if 619925132 ≤ n ∧ n < 2 ^ 32 then .capacity else .overflow)) ↔
      2 ^ 64 ≤ n ^ 6) := by
  have hzero : n = 0 → n ^ 6 = 0 := by
    rintro rfl
    rfl
  have hregimes : (n = 0 ∨ 2147483647 < n ^ 6 ∧ n ^ 6 < 2 ^ 64) ∨
      (1 ≤ n ∧ n ^ 6 ≤ 2147483647) ∨ 2 ^ 64 ≤ n ^ 6 := by omega
  rcases hregimes with hexcess | ⟨hpos, hfits⟩ | hoverflow
  · have hblank := blank_of_excess hexcess
    exact ⟨iff_of_true hblank hexcess, iff_of_false (by simp [hblank]) (by omega), by simp [hblank],
      iff_of_false (by simp [hblank]) (by omega)⟩
  · obtain ⟨o, rfl, hblank⟩ := blank_of_fits hpos hfits
    refine ⟨iff_of_false (by simp [hblank]) (by omega), iff_of_true ⟨_, hblank⟩ ⟨hpos, hfits⟩,
      fun p hp => ?_, iff_of_false (by simp [hblank]) (by omega)⟩
    obtain rfl : Puzzle.mk o (Board.blank o.side) = p := Except.ok.inj (hblank.symm.trans hp)
    have hside : o.n ^ 2 = o.side := Nat.pow_two o.n
    have hsquare := Board.square_blank o.side
    rw [hside]
    exact ⟨rfl, hsquare.rows,
      fun row hrow => ⟨hsquare.cells row hrow, fun _ => Board.eq_zero_of_mem_blank hrow⟩,
      ofBoard_eq_ok_iff.mpr ⟨rfl, wellFormed_blank o⟩⟩
  · have hblank := blank_of_overflow hoverflow
    exact ⟨iff_of_false (by simp [hblank]) (by omega), iff_of_false (by simp [hblank]) (by omega),
      by simp [hblank], iff_of_true hblank hoverflow⟩

/-- The orders on either side of each limit: the limit of the variables, that of the
    words for their number, that of the table of the rows, and that of the words for
    the number of rows. -/
theorem blank_exact_of_boundary_orders :
    (∃ p, blank 35 = .ok p) ∧ blank 36 = .error (.error (.invalidOrder 36)) ∧
      blank 1625 = .error (.error (.invalidOrder 1625)) ∧
      blank 1626 = .error (.fault .overflow) ∧ blank 619925131 = .error (.fault .overflow) ∧
      blank 619925132 = .error (.fault .capacity) ∧
      blank 4294967295 = .error (.fault .capacity) ∧
      blank 4294967296 = .error (.fault .overflow) :=
  ⟨(blank_exact 35).2.1.mpr (by decide), (blank_exact 36).1.mpr (by decide),
    (blank_exact 1625).1.mpr (by decide), (blank_exact 1626).2.2.2.mpr (by decide),
    (blank_exact 619925131).2.2.2.mpr (by decide), (blank_exact 619925132).2.2.2.mpr (by decide),
    (blank_exact 4294967295).2.2.2.mpr (by decide), (blank_exact 4294967296).2.2.2.mpr (by decide)⟩

end Puzzle

end Clausal.Sudoku
