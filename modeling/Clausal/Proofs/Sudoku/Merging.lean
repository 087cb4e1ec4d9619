import Clausal.Proofs.Sudoku.Encoding
import Clausal.Sudoku.Solve

namespace Clausal.Sudoku

namespace Puzzle

section Merging

variable {o : Order} {b b' : Board} {l : Literal} {literals : List Literal}

/-- The digits that a place has on a board or that literals put there. -/
def Enters (o : Order) (b : Board) (literals : List Literal) (place : o.Place) (digit : Nat) :
    Prop :=
  digit ≠ 0 ∧ b.digitAt place.1 place.2 = digit ∨
    ∃ d : Fin o.side, digit = d.val + 1 ∧ ∃ l ∈ literals, l.var = o.variableAt place d

/-- How putting the digits of literals on a board may end: with a board that has
    exactly the digits of both, or with a variable that has no place, or with a place
    that has two digits. -/
def Merges (o : Order) (b : Board) (literals : List Literal) :
    Except (Failure Error) Board → Prop
  | .ok b' => b'.Square o.side ∧ (∀ l ∈ literals, l.var.id ≤ o.numVars) ∧
      ∀ place digit, Enters o b literals place digit ↔
        digit ≠ 0 ∧ b'.digitAt place.1 place.2 = digit
  | .error (.error cause) =>
      (∃ l ∈ literals, o.numVars < l.var.id ∧
        cause = .structural (.variableOutOfRange l.var.id o.numVars)) ∨
      ∃ place first second, first ≠ second ∧ Enters o b literals place first ∧
        Enters o b literals place second ∧
        cause = .inconsistentSolution place.1 place.2 first second
  | .error (.fault _) => False

/-- Without literals a place shows what is on the board. -/
theorem enters_nil {place : o.Place} {digit : Nat} :
    Enters o b [] place digit ↔ digit ≠ 0 ∧ b.digitAt place.1 place.2 = digit := by
  simp [Enters]

/-- A literal brings its own digit, and the others bring theirs. -/
theorem enters_cons {place : o.Place} {digit : Nat} :
    Enters o b (l :: literals) place digit ↔ Enters o b [l] place digit ∨
      ∃ d : Fin o.side, digit = d.val + 1 ∧ ∃ m ∈ literals, m.var = o.variableAt place d := by
  simp [Enters, or_assoc, and_or_left, exists_or]

private theorem enters_variableAt {place a : o.Place} {d : Fin o.side} {digit : Nat}
    (hl : l.var = o.variableAt place d) :
    Enters o b [l] a digit ↔
      digit ≠ 0 ∧ b.digitAt a.1 a.2 = digit ∨ a = place ∧ digit = d.val + 1 := by
  simp only [Enters, List.mem_singleton, exists_eq_left, hl]
  refine or_congr_right ⟨?_, ?_⟩
  · rintro ⟨e, rfl, hvar⟩
    obtain ⟨rfl, rfl⟩ := Order.variableAt_injective hvar
    exact ⟨rfl, rfl⟩
  · rintro ⟨rfl, rfl⟩
    exact ⟨d, rfl, rfl⟩

/-- The digit of a literal is put on the board if its place is blank, and compared
    with the digit that is there if it is not. -/
theorem merges_placeDigit (h : b.Square o.side) (l : Literal) :
    Merges o b [l] (placeDigit o b l) := by
  by_cases hout : o.numVars < l.var.id
  · have hplace : placeDigit o b l =
        .error (.error (.structural (.variableOutOfRange l.var.id o.numVars))) := by
      simp only [placeDigit, if_pos hout]
      rfl
    rw [hplace]
    exact .inl ⟨l, List.mem_singleton_self l, hout, rfl⟩
  · have hrange : ∀ m ∈ [l], m.var.id ≤ o.numVars := by simpa using hout
    obtain ⟨place, d, hl⟩ := Order.exists_variableAt (Nat.le_of_not_lt hout)
    rw [hl] at hout
    have hget := h.get_eq place.1.isLt place.2.isLt
    simp only [placeDigit, if_neg hout, hl, Order.ofVariableId_eq, hget, pure, Except.pure, bind,
      Except.bind, liftM, monadLift, MonadLift.monadLift]
    by_cases hzero : b.digitAt place.1 place.2 = 0
    · obtain ⟨b', hput, hsquare, hdigits⟩ := h.put_spec place.1.isLt place.2.isLt (d.val + 1)
      simp only [if_pos hzero, hput]
      refine ⟨hsquare, hrange, fun a digit => ?_⟩
      have hdigit : b'.digitAt a.1 a.2 = if a = place then d.val + 1 else b.digitAt a.1 a.2 := by
        simp only [hdigits, Prod.ext_iff, Fin.ext_iff]
      rw [enters_variableAt hl, hdigit]
      by_cases ha : a = place
      · simp only [ha, hzero, if_true, true_and]
        omega
      · simp [ha]
    · rw [if_neg hzero]
      by_cases hsame : b.digitAt place.1 place.2 = d.val + 1
      · rw [if_pos hsame]
        refine ⟨h, hrange, fun a digit => ?_⟩
        rw [enters_variableAt hl, or_iff_left_iff_imp]
        rintro ⟨rfl, rfl⟩
        exact ⟨Nat.succ_ne_zero _, hsame⟩
      · rw [if_neg hsame]
        refine .inr ⟨place, _, _, hsame, ?_, ?_, rfl⟩
        · exact (enters_variableAt hl).mpr (.inl ⟨hzero, rfl⟩)
        · exact (enters_variableAt hl).mpr (.inr ⟨rfl, rfl⟩)

/-- The board that the first literal leaves has what the literal entered, so the other
    literals end on it as all of them do on the first board. -/
private theorem Merges.cons {result : Except (Failure Error) Board}
    (hstep : Merges o b [l] (.ok b')) (hrest : Merges o b' literals result) :
    Merges o b (l :: literals) result := by
  obtain ⟨_, hrange, hdigits⟩ := hstep
  have henters (place : o.Place) (digit : Nat) :
      Enters o b (l :: literals) place digit ↔ Enters o b' literals place digit := by
    rw [enters_cons, hdigits]
    rfl
  match result, hrest with
  | .ok b'', ⟨hsquare, hrange', hdigits'⟩ =>
    refine ⟨hsquare, List.forall_mem_cons.mpr ⟨hrange l (List.mem_singleton_self l), hrange'⟩, ?_⟩
    exact fun place digit => (henters place digit).trans (hdigits' place digit)
  | .error (.error cause), .inl ⟨m, hm, hout⟩ => exact .inl ⟨m, List.mem_cons_of_mem l hm, hout⟩
  | .error (.error cause), .inr ⟨place, first, second, hne, hfirst, hsecond, hcause⟩ =>
    exact .inr ⟨place, first, second, hne, (henters place first).mpr hfirst,
      (henters place second).mpr hsecond, hcause⟩

private theorem Merges.fail {failure : Failure Error} (hstep : Merges o b [l] (.error failure)) :
    Merges o b (l :: literals) (.error failure) := by
  have henters (place : o.Place) (digit : Nat) (h : Enters o b [l] place digit) :
      Enters o b (l :: literals) place digit := enters_cons.mpr (.inl h)
  match failure, hstep with
  | .error cause, .inl ⟨m, hm, hout⟩ =>
    obtain rfl := List.mem_singleton.mp hm
    exact .inl ⟨m, List.mem_cons_self, hout⟩
  | .error cause, .inr ⟨place, first, second, hne, hfirst, hsecond, hcause⟩ =>
    exact .inr ⟨place, first, second, hne, henters place first hfirst,
      henters place second hsecond, hcause⟩

/-- The literals are put on the board one after the other, each on the board that
    those in front of it leave. -/
theorem merges_foldlM (h : b.Square o.side) (literals : List Literal) :
    Merges o b literals (literals.foldlM (placeDigit o) b) := by
  -- The rest of the literals meet another board than the first one does.
  induction literals generalizing b with
  | nil => exact ⟨h, by simp, fun _ _ => enters_nil⟩
  | cons l literals ih =>
    have hstep := merges_placeDigit h l
    rw [List.foldlM_cons]
    cases hplace : placeDigit o b l with
    | error failure =>
      rw [hplace] at hstep
      exact hstep.fail
    | ok b' =>
      rw [hplace] at hstep
      exact hstep.cons (ih hstep.1)

/-- Merging goes through if all variables are in range and no place is to show two
    digits. -/
theorem Merges.exists_ok_iff {result : Except (Failure Error) Board}
    (h : Merges o b literals result) : (∃ b', result = .ok b') ↔
      (∀ l ∈ literals, l.var.id ≤ o.numVars) ∧
      ∀ place d e, Enters o b literals place d → Enters o b literals place e → d = e := by
  match result, h with
  | .ok b', ⟨_, hrange, hdigits⟩ =>
    refine iff_of_true ⟨b', rfl⟩ ⟨hrange, fun place d e hd he => ?_⟩
    exact ((hdigits place d).mp hd).2.symm.trans ((hdigits place e).mp he).2
  | .error (.error cause), .inl ⟨l, hl, hout, _⟩ =>
    refine iff_of_false (by simp) fun ⟨hrange, _⟩ => ?_
    exact Nat.not_lt.mpr (hrange l hl) hout
  | .error (.error cause), .inr ⟨place, first, second, hne, hfirst, hsecond, _⟩ =>
    refine iff_of_false (by simp) fun ⟨_, hsingle⟩ => ?_
    exact hne (hsingle place first second hfirst hsecond)

end Merging

variable {p : Puzzle}

/-- Decoding a model places the digits of its positive literals. -/
theorem decode_satisfiable (p : Puzzle) (numVars : Nat) (model : List Literal) :
    p.decode (.satisfiable numVars model) =
      ((model.filter Literal.polarity).foldlM (placeDigit p.order) p.board).map
        (Puzzle.mk p.order) := by
  simp only [decode, Solution.verdict, Solution.positives, Solution.model?, Option.getD_some]
  cases (model.filter Literal.polarity).foldlM (placeDigit p.order) p.board <;> rfl

/-- The digits that a place is given or that the positive literals of a model put
    there. -/
def Receives (p : Puzzle) (model : List Literal) (place : p.order.Place) (digit : Nat) : Prop :=
  digit ≠ 0 ∧ p.givenAt place = digit ∨
    ∃ d : Fin p.order.side, digit = d.val + 1 ∧ p.order.holds place d ∈ model

/-- The second puzzle is well formed and of the same order, and its digits are those
    that the places of the first are given or receive from the model. -/
structure MergedInto (p : Puzzle) (model : List Literal) (t : Puzzle) : Prop where
  order : t.order = p.order
  accepted : ofBoard t.board = .ok t
  digits : ∀ (place : p.order.Place) (digit : Nat), p.Receives model place digit ↔
    digit ≠ 0 ∧ Board.get t.board place.1 place.2 = .ok digit

variable {model model' : List Literal} {t t' : Puzzle}

private theorem holds_mem_iff {o : Order} {place : o.Place} {d : Fin o.side} :
    o.holds place d ∈ model ↔
      ∃ l ∈ model.filter Literal.polarity, l.var = o.variableAt place d := by
  constructor
  · intro hmem
    exact ⟨_, List.mem_filter.mpr ⟨hmem, Literal.polarity_literal _ _⟩, Variable.var_literal _ _⟩
  · rintro ⟨l, hl, hvar⟩
    obtain ⟨hmem, hpolarity⟩ := List.mem_filter.mp hl
    rwa [Order.holds, ← hvar, ← hpolarity, Literal.literal_var]

/-- A place shows what the puzzle gives or a positive literal of the model says. -/
theorem enters_positives {place : p.order.Place} {digit : Nat} :
    Enters p.order p.board (model.filter Literal.polarity) place digit ↔
      p.Receives model place digit := by
  simp only [Enters, Receives, givenAt, holds_mem_iff]

/-- A place receives no digit that is larger than the side of the board. -/
theorem Receives.le_side (hp : p.WellFormed) {place : p.order.Place} {digit : Nat}
    (h : p.Receives model place digit) : digit ≤ p.side := by
  rcases h with ⟨_, rfl⟩ | ⟨d, rfl, _⟩
  · exact hp.digits place.1 place.2
  · exact d.isLt

/-- Only one board has a model merged into it. -/
theorem MergedInto.unique (h : p.MergedInto model t) (h' : p.MergedInto model t') : t = t' := by
  obtain ⟨o, b⟩ := t
  obtain ⟨o', b'⟩ := t'
  obtain rfl : o = p.order := h.order
  obtain rfl : o' = p.order := h'.order
  have hsquare : b.Square p.side := (ofBoard_eq_ok_iff.mp h.accepted).2.square
  have hsquare' : b'.Square p.side := (ofBoard_eq_ok_iff.mp h'.accepted).2.square
  rw [Puzzle.mk.injEq]
  refine ⟨rfl, hsquare.ext hsquare' fun row hrow col hcol => ?_⟩
  have hdigits (digit : Nat) := (h.digits (⟨row, hrow⟩, ⟨col, hcol⟩) digit).symm.trans
    (h'.digits (⟨row, hrow⟩, ⟨col, hcol⟩) digit)
  simp only [hsquare.get_eq hrow hcol, hsquare'.get_eq hrow hcol, Except.ok.injEq] at hdigits
  have hdigit := hdigits (b.digitAt row col)
  have hdigit' := hdigits (b'.digitAt row col)
  omega

/-- No place of a merged board receives two digits. -/
theorem MergedInto.receives_unique (h : p.MergedInto model t) {place : p.order.Place} {d e : Nat}
    (hd : p.Receives model place d) (he : p.Receives model place e) : d = e :=
  Except.ok.inj (((h.digits place d).mp hd).2.symm.trans ((h.digits place e).mp he).2)

/-- A model can be decoded if its positive literals are in range and no place receives
    two digits. -/
theorem exists_decode_iff (hp : p.WellFormed) {numVars : Nat} :
    (∃ t, p.decode (.satisfiable numVars model) = .ok t) ↔
      (∀ l ∈ model, l.polarity = true → l.var.id ≤ p.order.numVars) ∧
      ∀ place d e, p.Receives model place d → p.Receives model place e → d = e := by
  have hexists := (merges_foldlM hp.square (model.filter Literal.polarity)).exists_ok_iff
  simp only [enters_positives, List.mem_filter, and_imp] at hexists
  rw [← hexists, decode_satisfiable]
  cases (model.filter Literal.polarity).foldlM (placeDigit p.order) p.board with
  | error failure => simp [Except.map]
  | ok b => simp [Except.map]

/-- What a model is decoded to is the board with the model merged into it. -/
theorem mergedInto_of_decode (hp : p.WellFormed) {numVars : Nat}
    (h : p.decode (.satisfiable numVars model) = .ok t) : p.MergedInto model t := by
  have hmerges := merges_foldlM hp.square (model.filter Literal.polarity)
  rw [decode_satisfiable] at h
  generalize (model.filter Literal.polarity).foldlM (placeDigit p.order) p.board = result at *
  cases result with
  | error failure => cases h
  | ok b =>
    cases h
    obtain ⟨hsquare, _, hdigits⟩ := hmerges
    simp only [enters_positives] at hdigits
    have hwellFormed : (Puzzle.mk p.order b).WellFormed := by
      apply wellFormed_of_square hsquare
      intro place
      by_cases hzero : b.digitAt place.1 place.2 = 0
      · exact le_of_eq_of_le hzero (Nat.zero_le _)
      · exact ((hdigits place _).mpr ⟨hzero, rfl⟩).le_side hp
    refine ⟨rfl, ofBoard_eq_ok_iff.mpr ⟨rfl, hwellFormed⟩, fun place digit => ?_⟩
    rw [hdigits, hsquare.get_eq place.1.isLt place.2.isLt, Except.ok.injEq]

/-- A model is decoded to the puzzle that it merges with the givens into. -/
theorem decode_eq_ok_iff (hp : p.WellFormed) {numVars : Nat} :
    p.decode (.satisfiable numVars model) = .ok t ↔
      (∀ l ∈ model, l.polarity = true → l.var.id ≤ p.order.numVars) ∧ p.MergedInto model t := by
  constructor
  · intro h
    exact ⟨((exists_decode_iff hp).mp ⟨t, h⟩).1, mergedInto_of_decode hp h⟩
  · rintro ⟨hrange, hmerged⟩
    obtain ⟨t', h'⟩ : ∃ t', p.decode (.satisfiable numVars model) = .ok t' :=
      (exists_decode_iff hp).mpr ⟨hrange, fun place d e => hmerged.receives_unique⟩
    rw [h', (mergedInto_of_decode hp h').unique hmerged]

/-- The puzzle that a model is decoded to depends on the literals of the model
    only. -/
theorem decode_congr (hp : p.WellFormed) {numVars numVars' : Nat}
    (hsame : ∀ l, l ∈ model' ↔ l ∈ model)
    (h : p.decode (.satisfiable numVars model) = .ok t) :
    p.decode (.satisfiable numVars' model') = .ok t := by
  rw [decode_eq_ok_iff hp] at h ⊢
  obtain ⟨hrange, horder, haccepted, hdigits⟩ := h
  refine ⟨fun l hl => hrange l ((hsame l).mp hl), horder, haccepted, fun place digit => ?_⟩
  rw [← hdigits, Receives, Receives]
  simp only [hsame]

/-- An error names a variable without a place, or a place and two digits that it
    receives. -/
theorem blame_of_decode (hp : p.WellFormed) {numVars : Nat} {failure : Failure Error}
    (h : p.decode (.satisfiable numVars model) = .error failure) :
    (∃ l ∈ model, l.polarity = true ∧ p.order.numVars < l.var.id ∧
      failure = .error (.structural (.variableOutOfRange l.var.id p.order.numVars))) ∨
    ∃ place first second, first ≠ second ∧ p.Receives model place first ∧
      p.Receives model place second ∧
      failure = .error (.inconsistentSolution place.1 place.2 first second) := by
  have hmerges := merges_foldlM hp.square (model.filter Literal.polarity)
  rw [decode_satisfiable] at h
  generalize (model.filter Literal.polarity).foldlM (placeDigit p.order) p.board = result at *
  cases result with
  | ok b => cases h
  | error failure =>
    cases h
    cases failure with
    | fault reason => exact hmerges.elim
    | error cause =>
      obtain ⟨l, hl, hout, rfl⟩ | ⟨place, first, second, hne, hfirst, hsecond, rfl⟩ := hmerges
      · obtain ⟨hl, hpolarity⟩ := List.mem_filter.mp hl
        exact .inl ⟨l, hl, hpolarity, hout, rfl⟩
      · exact .inr ⟨place, first, second, hne, enters_positives.mp hfirst,
          enters_positives.mp hsecond, rfl⟩

/-- Decoding succeeds if and only if the positive literals of the model have places
    and no place receives two digits from them and the givens. The result then has
    all digits that are received and no others, so it depends on which literals the
    model has and not on how it lists them. Otherwise the error names a variable
    without a place, or a place and two digits that it receives. -/
theorem decode_merges {b : Board} (hboard : ofBoard b = .ok p) (numVars : Nat)
    (model : List Literal) :
    ((∃ t, p.decode (.satisfiable numVars model) = .ok t) ↔
      (∀ l ∈ model, l.polarity = true → l.var.id ≤ p.order.n ^ 6) ∧
      ∀ place d e, p.Receives model place d → p.Receives model place e → d = e) ∧
    (∀ t, p.decode (.satisfiable numVars model) = .ok t → p.MergedInto model t ∧
      ∀ numVars' model', (∀ l, l ∈ model' ↔ l ∈ model) →
        p.decode (.satisfiable numVars' model') = .ok t) ∧
    ∀ failure, p.decode (.satisfiable numVars model) = .error failure →
      (∃ l ∈ model, l.polarity = true ∧ p.order.n ^ 6 < l.var.id ∧
        failure = .error (.structural (.variableOutOfRange l.var.id (p.order.n ^ 6)))) ∨
      ∃ place first second, first ≠ second ∧ p.Receives model place first ∧
        p.Receives model place second ∧
        failure = .error (.inconsistentSolution place.1 place.2 first second) := by
  obtain ⟨_, hp⟩ := ofBoard_eq_ok_iff.mp hboard
  rw [← Order.numVars_eq_pow]
  refine ⟨exists_decode_iff hp, fun t ht => ⟨mergedInto_of_decode hp ht, ?_⟩, ?_⟩
  · exact fun numVars' model' hsame => decode_congr hp hsame ht
  · exact fun failure hfailure => blame_of_decode hp hfailure

/-- A digit that is said twice is placed once, the order of the literals does not
    matter, and two digits for one place are too many. -/
theorem decode_merges_of_repetition_and_contradiction :
    ∃ p t two three, ofBoard [[1, 0, 0, 0], [0, 0, 0, 0], [0, 0, 0, 0], [0, 0, 0, 0]] = .ok p ∧
      two.value = 6 ∧ three.value = 7 ∧
      p.decode (.satisfiable 3 [two, two.negate, two]) = .ok t ∧
      t.board = [[1, 2, 0, 0], [0, 0, 0, 0], [0, 0, 0, 0], [0, 0, 0, 0]] ∧
      p.decode (.satisfiable 2 [two.negate, two]) = .ok t ∧
      ¬ ∃ t, p.decode (.satisfiable 2 [two, three]) = .ok t := by
  let p : Puzzle :=
    ⟨⟨2, by decide, by decide⟩, [[1, 0, 0, 0], [0, 0, 0, 0], [0, 0, 0, 0], [0, 0, 0, 0]]⟩
  have hp : p.WellFormed := wellFormed_of_square ⟨rfl, by decide⟩ (by decide)
  have hboard : ofBoard p.board = .ok p := ofBoard_eq_ok_iff.mpr ⟨rfl, hp⟩
  let place : p.order.Place := ((0 : Fin 4), (1 : Fin 4))
  let two := p.order.holds place (1 : Fin 4)
  let three := p.order.holds place (2 : Fin 4)
  let t : Puzzle := ⟨p.order, [[1, 2, 0, 0], [0, 0, 0, 0], [0, 0, 0, 0], [0, 0, 0, 0]]⟩
  have hdecode : p.decode (.satisfiable 3 [two, two.negate, two]) = .ok t := by
    decide +kernel
  obtain ⟨_, hagain⟩ := (decode_merges hboard 3 _).2.1 t hdecode
  refine ⟨p, t, two, three, hboard, rfl, rfl, hdecode, rfl, hagain 2 _ (by simp), fun hexists => ?_⟩
  obtain ⟨_, hsingle⟩ := (decode_merges hboard 2 [two, three]).1.mp hexists
  have htwo : p.Receives [two, three] place 2 := .inr ⟨(1 : Fin 4), rfl, by simp [two]⟩
  have hthree : p.Receives [two, three] place 3 := .inr ⟨(2 : Fin 4), rfl, by simp [three]⟩
  exact absurd (hsingle place 2 3 htwo hthree) (by decide)

end Puzzle

end Clausal.Sudoku
