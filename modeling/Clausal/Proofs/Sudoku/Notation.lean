import Clausal.Proofs.Sudoku.Encoding
import Clausal.Proofs.Sudoku.Grid
import Clausal.Proofs.Text.Lines
import Clausal.Proofs.Text.Numeral
import Clausal.Sudoku.Notation

namespace Clausal.Sudoku

open Text

section Chunks

variable {α : Type} {size : Nat} {rows : List (List α)}

private theorem drop_mul_flatten (h : ∀ row ∈ rows, row.length = size) (i : Nat) :
    rows.flatten.drop (i * size) = (rows.drop i).flatten := by
  induction i generalizing rows with
  | zero => simp
  | succ i ih =>
    cases rows with
    | nil => simp
    | cons row rest =>
      obtain ⟨hrow, hrest⟩ := List.forall_mem_cons.mp h
      rw [List.flatten_cons, Nat.succ_mul, Nat.add_comm, ← List.drop_drop, List.drop_left' hrow,
        ih hrest, List.drop_succ_cons]

/-- Rows of equal length have that many cells times their number. -/
theorem length_flatten_of_forall (h : ∀ row ∈ rows, row.length = size) :
    rows.flatten.length = rows.length * size := by
  rw [List.length_flatten, List.map_congr_left h, List.map_const', List.sum_replicate_nat]

/-- A list is cut into as many pieces as fit. -/
theorem length_chunks {elements : List α} {count : Nat} (hsize : 0 < size)
    (h : elements.length = count * size) : (chunks size elements).length = count := by
  rw [chunks, List.length_map, List.length_range, h, Nat.add_sub_assoc hsize, Nat.add_comm,
    Nat.add_mul_div_right _ _ hsize, Nat.div_eq_of_lt (by omega), Nat.zero_add]

/-- As many elements as a square has are cut into as many stretches as it has rows. -/
theorem length_chunks_of_square {elements : List α} (h : elements.length = size * size) :
    (chunks size elements).length = size := by
  rcases Nat.eq_zero_or_pos size with rfl | hsize
  · rw [chunks, Nat.div_zero]
    rfl
  · exact length_chunks hsize h

/-- Rows of equal length are found again in the sequence of their elements. -/
theorem chunks_flatten (hsize : 0 < size) (h : ∀ row ∈ rows, row.length = size) :
    chunks size rows.flatten = rows := by
  apply List.ext_getElem
  · exact length_chunks hsize (length_flatten_of_forall h)
  · intro i _ hi
    have hrow := h _ (List.getElem_mem hi)
    simp only [chunks, List.getElem_map, List.getElem_range]
    rw [drop_mul_flatten h, List.drop_eq_getElem_cons hi, List.flatten_cons, List.take_left' hrow]

end Chunks

/-- Numbers in decimal with a hyphen between each two. -/
def hyphenated (digits : List Nat) : List Char :=
  ['-'].intercalate (digits.map fun digit => (toString digit).toList)

section Hyphens

variable {digits : List Nat}

/-- Between digits there are only hyphens. -/
theorem mem_hyphenated {c : Char} (hc : c ∈ hyphenated digits) : c = '-' ∨ c.isDigit = true := by
  rcases mem_intercalate hc with rfl | ⟨token, htoken, hc⟩
  · exact .inl rfl
  · obtain ⟨digit, _, rfl⟩ := List.mem_map.mp htoken
    exact .inr ((Numeral.digits_toString digit).digits c hc)

/-- The digits of a board are one field. -/
theorem isToken_hyphenated (hne : digits ≠ []) : IsToken (hyphenated digits) := by
  constructor
  · obtain ⟨digit, rest, rfl⟩ := List.exists_cons_of_ne_nil hne
    have hdigit := (Numeral.digits_toString digit).nonempty
    cases rest with
    | nil => rwa [hyphenated, List.map_singleton, List.intercalate_singleton]
    | cons next others =>
      rw [hyphenated, List.map_cons, List.map_cons, List.intercalate_cons_cons, List.append_assoc]
      exact List.append_ne_nil_of_left_ne_nil hdigit _
  · intro c hc
    rcases mem_hyphenated hc with rfl | hdigit
    · decide
    · exact isBlank_of_isDigit hdigit

/-- The digits that have been written are read. -/
theorem readDigits_hyphenated (hne : digits ≠ []) (hword : ∀ digit ∈ digits, digit < Word.bound) :
    Puzzle.readDigits (hyphenated digits) = .ok digits := by
  have hhyphen : ∀ token ∈ digits.map (fun digit => (toString digit).toList), '-' ∉ token := by
    refine List.forall_mem_map.mpr fun digit _ hmem => ?_
    exact absurd ((Numeral.digits_toString digit).digits _ hmem) (by decide)
  rw [Puzzle.readDigits, hyphenated, List.splitOn_intercalate '-' hhyphen (by simpa using hne),
    List.mapM_map, mapM_eq_ok (g := id), List.map_id]
  intro digit hdigit
  simp only [Function.comp_apply, (Numeral.isToken_toString digit).trim_eq,
    Numeral.readWord_toString (hword digit hdigit), id_eq]

end Hyphens

namespace Puzzle

variable {p : Puzzle}

/-- A line holds the order and the digits with a blank between them. -/
theorem toList_toLine (p : Puzzle) : p.toLine.toList =
    (toString p.order.n).toList ++ ([' '] ++ hyphenated p.board.flatten) := by
  have hfront : (s!"{p.order.n} ").toList = (toString p.order.n).toList ++ [' '] := by
    rw [String.toList_append]
    rfl
  rw [toLine, String.toList_append, hfront, String.toList_intercalate, List.map_map, hyphenated,
    List.append_assoc]
  rfl

/-- Digits are cut into rows if there are as many as the order asks for. -/
theorem ofDigits_eq {n : Nat} (hbound : n * n * (n * n) < Word.bound) (digits : List Nat) :
    ofDigits n digits =
      if digits.length = n * n * (n * n) then liftM (cut (n * n) digits) >>= ofBoard
      else .error (.error (.malformed (.cellCount (n * n * (n * n)) n digits.length))) := by
  have harea : Word.mul (n * n) (n * n) = .ok (n * n * (n * n)) :=
    Word.mul_eq_ok_iff.mpr ⟨hbound, rfl⟩
  simp only [ofDigits, harea]
  by_cases h : digits.length = n * n * (n * n)
  · rw [if_pos h]
    exact if_neg (not_not.mpr h)
  · rw [if_neg h]
    exact if_pos h

/-- Digits make a puzzle if there are as many as the order asks for and their rows make
    one. -/
theorem ofDigits_eq_ok_iff {n : Nat} {digits : List Nat} (hbound : n * n * (n * n) < Word.bound) :
    ofDigits n digits = .ok p ↔
      digits.length = n * n * (n * n) ∧ ofBoard (chunks (n * n) digits) = .ok p := by
  rw [ofDigits_eq hbound]
  by_cases hlength : digits.length = n * n * (n * n)
  · simp only [if_pos hlength, bind_eq_ok_iff, lift_fault_eq_ok_iff]
    unfold cut
    by_cases hside : n * n = 0
    · -- Without rows neither the cells can be cut nor is there a board.
      have hempty : ofBoard (chunks 0 digits) = .error (.error (.invalidOrder 0)) := by
        rw [chunks, Nat.div_zero]
        rfl
      simp [hside, hempty]
    · simp [hside, hlength]
  · simp [hlength]

/-- What the reading of a line comes down to. -/
theorem ofLine_eq_ok_iff {text : List Char} : ofLine text = .ok p ↔
    ∃ order cells n digits, splitAtBlank? (trim text) = some (order, cells) ∧
      Numeral.readWord order = .ok n ∧ n * n * (n * n) < Word.bound ∧
      readDigits (trim cells) = .ok digits ∧ digits.length = n * n * (n * n) ∧
      ofBoard (chunks (n * n) digits) = .ok p := by
  simp only [ofLine]
  cases hsplit : splitAtBlank? (trim text) with
  | none => simp [throw, throwThe, MonadExceptOf.throw]
  | some parts =>
    obtain ⟨order, cells⟩ := parts
    cases hn : Numeral.readWord order with
    | error cause => simp [hn, throw, throwThe, MonadExceptOf.throw]
    | ok n =>
      by_cases hbound : Word.bound ≤ n * n * (n * n)
      · simp [hn, hbound, Nat.not_lt.mpr hbound, throw, throwThe, MonadExceptOf.throw, bind,
          Except.bind]
      · simp only [hn, hbound, if_false, bind_eq_ok_iff, ofDigits_eq_ok_iff (Nat.not_le.mp hbound)]
        constructor
        · rintro ⟨digits, hdigits, hlength, hboard⟩
          exact ⟨order, cells, n, digits, rfl, hn, Nat.not_le.mp hbound, hdigits, hlength, hboard⟩
        · rintro ⟨_, _, n', digits, heq, hn', _, hdigits, hlength, hboard⟩
          cases heq
          rw [hn] at hn'
          cases hn'
          exact ⟨digits, hdigits, hlength, hboard⟩

/-- Only well-formed puzzles are read. -/
theorem wellFormed_of_ofLine {text : List Char} (h : ofLine text = .ok p) : p.WellFormed := by
  obtain ⟨_, _, _, _, _, _, _, _, _, hboard⟩ := ofLine_eq_ok_iff.mp h
  exact (ofBoard_eq_ok_iff.mp hboard).2

/-- No digit is larger than there are digits. -/
theorem WellFormed.digit_le (hp : p.WellFormed) {digit : Nat} (h : digit ∈ p.board.flatten) :
    digit ≤ p.side := by
  obtain ⟨cells, hcells, hdigit⟩ := List.mem_flatten.mp h
  obtain ⟨row, hrow⟩ := List.mem_iff_getElem?.mp hcells
  obtain ⟨col, hcol⟩ := List.mem_iff_getElem?.mp hdigit
  have hle := hp.digits row col
  rwa [Board.digitAt_of_getElem? hrow, hcol] at hle

/-- There are as many cells as rows times columns. -/
theorem WellFormed.length_flatten (hp : p.WellFormed) :
    p.board.flatten.length = p.side * p.side := by
  rw [length_flatten_of_forall hp.square.cells, hp.square.rows]

/-- There is at least one cell. -/
theorem WellFormed.flatten_ne_nil (hp : p.WellFormed) : p.board.flatten ≠ [] := by
  rw [← List.length_pos_iff, hp.length_flatten]
  exact Nat.mul_pos p.order.side_pos p.order.side_pos

/-- The rows of a well-formed puzzle are found again in its cells. -/
theorem WellFormed.ofBoard_chunks (hp : p.WellFormed) :
    ofBoard (chunks p.side p.board.flatten) = .ok p := by
  have hrows : chunks p.side p.board.flatten = p.board :=
    chunks_flatten p.order.side_pos hp.square.cells
  rw [hrows]
  exact ofBoard_eq_ok_iff.mpr ⟨rfl, hp⟩

/-- A well-formed puzzle is read back from its line. -/
theorem ofLine_toLine (hp : p.WellFormed) : ofLine p.toLine.toList = .ok p := by
  have hne := hp.flatten_ne_nil
  have harea : p.side * p.side ≤ Variable.maxId := p.order.area_le
  have hword {k : Nat} (hk : k ≤ p.side * p.side) : k < Word.bound := by
    simp only [Variable.maxId, Word.bound] at harea ⊢
    omega
  have horder : p.order.n ≤ p.side * p.side :=
    Nat.le_trans (Nat.le_mul_self _) (Nat.le_mul_self _)
  have hcells := isToken_hyphenated hne
  have htoken := Numeral.isToken_toString p.order.n
  rw [toList_toLine, ofLine_eq_ok_iff, trim_between htoken hcells]
  refine ⟨_, hyphenated p.board.flatten, p.order.n, p.board.flatten,
    splitAtBlank?_append htoken _, Numeral.readWord_toString (hword horder),
    hword (Nat.le_refl _), ?_, hp.length_flatten, ?_⟩
  · rw [hcells.trim_eq]
    refine readDigits_hyphenated hne fun digit hdigit => hword ?_
    exact Nat.le_trans (hp.digit_le hdigit) (Nat.le_mul_self _)
  · exact hp.ofBoard_chunks

/-- A line that holds no puzzle: white space only, or a number sign in front. -/
structure Skipped (line : List Char) : Prop where
  unbroken : '\n' ∉ line
  holdsNone : leading? line = none ∨ leading? line = some '#'

/-- The lines are those of the puzzles, in the same order, with any number of lines
    that hold none in front of, between and behind them. -/
inductive Listed : List Puzzle → List (List Char) → Prop
  | nil : Listed [] []
  | puzzle {p : Puzzle} {puzzles : List Puzzle} {lines : List (List Char)}
      (hrest : Listed puzzles lines) : Listed (p :: puzzles) (p.toLine.toList :: lines)
  | skipped {line : List Char} {puzzles : List Puzzle} {lines : List (List Char)}
      (hline : Skipped line) (hrest : Listed puzzles lines) : Listed puzzles (line :: lines)

section Lists

variable {puzzles : List Puzzle} {lines : List (List Char)} {line : List Char}

/-- A line holds nothing but digits, hyphens and blanks. -/
theorem mem_toLine {c : Char} (hc : c ∈ p.toLine.toList) :
    c = ' ' ∨ c = '-' ∨ c.isDigit = true := by
  rw [toList_toLine, List.mem_append, List.mem_append, List.mem_singleton] at hc
  rcases hc with hc | hc | hc
  · exact .inr (.inr ((Numeral.digits_toString _).digits c hc))
  · exact .inl hc
  · exact .inr (mem_hyphenated hc)

/-- No line is broken. -/
theorem Listed.unbroken (h : Listed puzzles lines) : ∀ line ∈ lines, '\n' ∉ line := by
  induction h with
  | nil => exact List.forall_mem_nil _
  | @puzzle p _ _ _ ih =>
    exact List.forall_mem_cons.mpr ⟨fun hmem => absurd (mem_toLine hmem) (by decide), ih⟩
  | skipped hline _ ih => exact List.forall_mem_cons.mpr ⟨hline.unbroken, ih⟩

/-- A line that is skipped may follow. -/
theorem Listed.concat (h : Listed puzzles lines) (hline : Skipped line) :
    Listed puzzles (lines ++ [line]) := by
  induction h with
  | nil => exact .skipped hline .nil
  | puzzle _ ih => exact .puzzle ih
  | skipped hfirst _ ih => exact .skipped hfirst ih

/-- A return at the end of a line that holds no puzzle is white space. -/
private theorem Skipped.dropReturn (h : Skipped line) :
    Skipped (if line.getLast? = some '\r' then line.dropLast else line) := by
  split
  · rename_i hlast
    obtain ⟨front, rfl⟩ := List.getLast?_eq_some_iff.mp hlast
    have hfront : leading? (front ++ ['\r']) = leading? front := by
      have hreturn : leading? ['\r'] = none := by decide
      rw [leading?, List.find?_append, ← leading?, ← leading?, hreturn, Option.or_none]
    rw [List.dropLast_concat]
    refine ⟨fun hmem => h.unbroken (List.mem_append_left _ hmem), ?_⟩
    rw [← hfront]
    exact h.holdsNone
  · exact h

/-- Carriage returns in front of the line ends make no difference. -/
theorem Listed.dropReturn (h : Listed puzzles lines) :
    Listed puzzles (lines.map fun line =>
      if line.getLast? = some '\r' then line.dropLast else line) := by
  induction h with
  | nil => exact .nil
  | @puzzle p _ _ _ ih =>
    rw [List.map_cons, if_neg]
    · exact .puzzle ih
    · intro hlast
      exact absurd (mem_toLine (List.mem_of_getLast? hlast)) (by decide)
  | skipped hline _ ih => exact .skipped hline.dropReturn ih

/-- Blank lines and comments hold no puzzle. -/
theorem ofSourceLine_skipped (h : Skipped line) : ofSourceLine (.ok line) = .ok none := by
  have hhead := head?_trim line
  simp only [ofSourceLine]
  cases htrim : trim line with
  | nil => rfl
  | cons c rest =>
    rw [htrim, List.head?_cons] at hhead
    rcases h.holdsNone with hnone | hsign
    · rw [hnone] at hhead
      cases hhead
    · rw [hsign] at hhead
      cases hhead
      rfl

/-- The line of a well-formed puzzle holds that puzzle. -/
theorem ofSourceLine_toLine (hp : p.WellFormed) :
    ofSourceLine (.ok p.toLine.toList) = .ok (some p) := by
  have htoken := Numeral.isToken_toString p.order.n
  have hcells := isToken_hyphenated hp.flatten_ne_nil
  have htrim : trim p.toLine.toList = p.toLine.toList := by
    rw [toList_toLine]
    exact trim_between htoken hcells _
  have hline := ofLine_toLine hp
  simp only [ofSourceLine, htrim]
  split
  · rename_i hnil
    rw [hnil] at hline
    cases hline
  · rename_i hsign
    exact absurd (mem_toLine (p := p) (hsign ▸ List.mem_cons_self)) (by decide)
  · rw [hline]
    rfl

/-- Only well-formed puzzles are read. -/
theorem wellFormed_of_ofSourceLine {entry : Except FileError (List Char)}
    (h : ofSourceLine entry = .ok (some p)) : p.WellFormed := by
  simp only [ofSourceLine] at h
  split at h
  · cases h
  · split at h
    · cases h
    · cases h
    · obtain ⟨q, hline, hq⟩ := bind_eq_ok_iff.mp h
      cases hq
      exact wellFormed_of_ofLine hline

/-- The first line is read and then the others. -/
theorem readAll_cons (entry : Except FileError (List Char)) (source : Source) :
    readAll (entry :: source) = do
      let first ← ofSourceLine entry
      let others ← readAll source
      return first.toList ++ others := by
  simp only [readAll, List.mapM_cons]
  cases ofSourceLine entry with
  | error failure => rfl
  | ok first =>
    cases source.mapM ofSourceLine with
    | error failure => rfl
    | ok others => cases first <;> rfl

/-- All puzzles that are read are well formed. -/
theorem wellFormed_of_readAll {source : Source} (h : readAll source = .ok puzzles) :
    ∀ p ∈ puzzles, p.WellFormed := by
  induction source generalizing puzzles with
  | nil =>
    obtain rfl := Except.ok.inj h
    exact List.forall_mem_nil _
  | cons entry source ih =>
    simp only [readAll_cons, bind_eq_ok_iff] at h
    obtain ⟨first, hfirst, others, hothers, hread⟩ := h
    obtain rfl := Except.ok.inj hread
    intro p hp
    rcases List.mem_append.mp hp with hp | hp
    · rw [Option.mem_toList.mp hp] at hfirst
      exact wellFormed_of_ofSourceLine hfirst
    · exact ih hothers p hp

/-- The puzzles that are listed are read in order. -/
theorem Listed.readAll_eq (h : Listed puzzles lines) (hp : ∀ p ∈ puzzles, p.WellFormed) :
    readAll (lines.map .ok) = .ok puzzles := by
  induction h with
  | nil => rfl
  | puzzle _ ih =>
    obtain ⟨hfirst, hrest⟩ := List.forall_mem_cons.mp hp
    rw [List.map_cons, readAll_cons, ofSourceLine_toLine hfirst, ih hrest]
    rfl
  | skipped hline _ ih =>
    rw [List.map_cons, readAll_cons, ofSourceLine_skipped hline, ih hp]
    rfl

/-- A text whose last line need not be ended is read like its lines. -/
theorem Listed.readAll_ofText (h : Listed puzzles lines) (hp : ∀ p ∈ puzzles, p.WellFormed)
    {last : List Char} (hlast : Skipped last) :
    readAll (.ofText ((lines.flatMap fun line => line ++ ['\n']) ++ last)) = .ok puzzles := by
  have hsplit := splitOn_ended_append h.unbroken hlast.unbroken
  rw [Source.ofText, splitLines, hsplit, List.dropLast_concat, List.getLast?_concat]
  cases last with
  | nil =>
    rw [Option.toList_some, List.filter_cons_of_neg (by simp), List.filter_nil, List.append_nil]
    exact h.dropReturn.readAll_eq hp
  | cons c rest =>
    rw [Option.toList_some, List.filter_cons_of_pos (by simp), List.filter_nil]
    exact (h.dropReturn.concat hlast).readAll_eq hp

end Lists

/-- Puzzles that are written as lines are read back from a text of these lines, in
    the same order, and lines that hold none may stand in front of, between and
    behind them. Whatever puzzle a line is read as is also read from its own line. -/
theorem line_round_trip :
    (∀ (puzzles : List Puzzle) (lines : List (List Char)) (last : List Char) (text : String),
      (∀ p ∈ puzzles, ∃ b, ofBoard b = .ok p) → Listed puzzles lines → Skipped last →
      text.toList = (lines.flatMap fun line => line ++ ['\n']) ++ last →
      readAll (.ofBytes text.toUTF8.data.toList) = .ok puzzles) ∧
    ∀ (text : List Char) (p : Puzzle), ofLine text = .ok p → ofLine p.toLine.toList = .ok p := by
  constructor
  · intro puzzles lines last text hbuilt hlisted hlast htext
    have hp : ∀ p ∈ puzzles, p.WellFormed := by
      intro p hmem
      obtain ⟨b, hboard⟩ := hbuilt p hmem
      exact (ofBoard_eq_ok_iff.mp hboard).2
    rw [Source.ofBytes_toUTF8, Source.ofString, htext]
    exact hlisted.readAll_ofText hp hlast
  · intro text p hline
    exact ofLine_toLine (wellFormed_of_ofLine hline)

/-- The second puzzle follows a comment that ends with a return, and the text ends
    in the middle of a comment. A line may have signs, zeros and blanks that are not
    written. -/
theorem line_round_trip_of_commented_text :
    (∃ p q, ofBoard [[1]] = .ok p ∧
      ofBoard [[1, 0, 0, 0], [0, 0, 3, 0], [0, 4, 0, 0], [0, 0, 0, 2]] = .ok q ∧
      readAll (.ofBytes
        "\n1 1\n \t# two\r\n2 1-0-0-0-0-0-3-0-0-4-0-0-0-0-0-2\n  \n#".toUTF8.data.toList) =
          .ok [p, q]) ∧
    ∃ p, ofLine "\t+01  +1 ".toList = .ok p ∧ ofLine p.toLine.toList = .ok p := by
  constructor
  · let p : Puzzle := ⟨⟨1, by decide, by decide⟩, [[1]]⟩
    let q : Puzzle :=
      ⟨⟨2, by decide, by decide⟩, [[1, 0, 0, 0], [0, 0, 3, 0], [0, 4, 0, 0], [0, 0, 0, 2]]⟩
    have hp : ofBoard [[1]] = .ok p :=
      ofBoard_eq_ok_iff.mpr ⟨rfl, wellFormed_of_square ⟨rfl, by decide⟩ (by decide)⟩
    have hq : ofBoard [[1, 0, 0, 0], [0, 0, 3, 0], [0, 4, 0, 0], [0, 0, 0, 2]] = .ok q :=
      ofBoard_eq_ok_iff.mpr ⟨rfl, wellFormed_of_square ⟨rfl, by decide⟩ (by decide)⟩
    have hline : p.toLine.toList = "1 1".toList := by cbv
    have hline' : q.toLine.toList = "2 1-0-0-0-0-0-3-0-0-4-0-0-0-0-0-2".toList := by cbv
    refine ⟨p, q, hp, hq, line_round_trip.1 [p, q]
      ["".toList, p.toLine.toList, " \t# two\r".toList, q.toLine.toList, "  ".toList] "#".toList _
      ?_ ?_ ⟨by decide, by decide⟩ ?_⟩
    · simp only [List.forall_mem_cons]
      exact ⟨⟨_, hp⟩, ⟨_, hq⟩, List.forall_mem_nil _⟩
    · exact .skipped ⟨by decide, by decide⟩ (.puzzle (.skipped ⟨by decide, by decide⟩
        (.puzzle (.skipped ⟨by decide, by decide⟩ .nil))))
    · rw [hline, hline']
      decide +kernel
  · obtain ⟨p, hline⟩ : ∃ p, ofLine "\t+01  +1 ".toList = .ok p := ⟨_, rfl⟩
    exact ⟨p, hline, line_round_trip.2 _ p hline⟩

end Puzzle

end Clausal.Sudoku
