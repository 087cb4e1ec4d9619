import Clausal.Proofs.Solution.Reading
import Mathlib.Algebra.Group.Nat.Defs
import Mathlib.Data.List.Perm.Subperm

namespace Clausal

namespace Solution

open Text

section Reading

variable {source : Source} {numVars : Nat} {model : List Literal} {lines : List (List Char)}

/-- A satisfiable solution is read from a text if and only if the text keeps to the
    grammar, as many value lines as there are variables give the model, and none of
    them names a variable that is not declared. -/
theorem parse_eq_satisfiable_iff : parse source = .ok (.satisfiable numVars model) ↔
    (∃ lines, source = lines.map .ok ∧ Spells numVars model lines) ∧
      (satisfiable numVars model).Legible := by
  constructor
  · intro h
    refine ⟨?_, legible_of_parse h⟩
    obtain ⟨verdict, numVars', rest, hstatus, hholds⟩ := parse_eq_ok_iff.mp h
    cases verdict with
    | unsatisfiable => cases hholds
    | unknown => cases hholds
    | satisfiable =>
      obtain ⟨_, _, hread, _, heq⟩ := hholds
      obtain ⟨model', body, hbody, hlists, _, rfl⟩ := lists_of_foldlM_readLine hread
      obtain ⟨front, comments, status, number, hentries, hfront, hcomments, hline⟩ :=
        seekStatus_eq_ok_iff.mp hstatus
      obtain ⟨rfl, rfl⟩ : numVars' = numVars ∧ model' = model := by simpa using heq
      refine ⟨comments ++ status :: body, ?_, .intro hcomments hline hlists⟩
      rw [← List.zipIdx_map_fst 1 source, hentries, List.map_append, List.map_cons, hfront, hbody,
        List.map_append, List.map_cons]
  · rintro ⟨⟨lines, rfl, hspells⟩, hsize, hlength, hrange⟩
    obtain ⟨rest, body, hstatus, hbody, hlists⟩ := hspells.seekStatus
    refine parse_eq_ok_iff.mpr ⟨.satisfiable, numVars, rest, hstatus, hsize, _,
      foldlM_readLine_of_lists hlists hbody hrange (by simp [hlength]), ?_, ?_⟩
    · simpa using hlength
    · simp

/-- What follows the status line of a satisfiable formula: a table for the model is
    asked for, the lines are read, and the literals are counted. -/
theorem parse_of_seekStatus {rest : Numbered}
    (hstatus : seekStatus (source.zipIdx 1) = .ok ((.satisfiable, numVars), rest)) :
    parse source =
      if numVars * 4 ≤ Word.maxTableBytes then
        match rest.foldlM (readLine numVars) #[] with
        | .error cause => .error (.error cause)
        | .ok model =>
          if model.size = numVars then .ok (.satisfiable numVars model.toList)
          else .error (.error (.malformed 0 (.valueCount numVars model.size)))
      else .error (.fault .capacity) := by
  simp only [parse, hstatus, Word.checkTable, bind, Except.bind, liftM, monadLift,
    MonadLift.monadLift]
  by_cases hsize : numVars * 4 ≤ Word.maxTableBytes
  · rw [if_pos hsize, if_pos hsize]
    cases rest.foldlM (readLine numVars) #[] with
    | error cause => rfl
    | ok model =>
      by_cases hcount : model.size = numVars
      · simp [hcount, pure, Except.pure]
      · simp [hcount, throw, throwThe, MonadExceptOf.throw]
  · rw [if_neg hsize, if_neg hsize]

/-- Too few value lines are found out at the end of the text, which has no line number. -/
theorem parse_of_too_few (h : Spells numVars model lines)
    (hrange : ∀ l ∈ model, l.var.id ≤ numVars) (hsize : numVars * 4 ≤ Word.maxTableBytes)
    (hfew : model.length < numVars) : parse (lines.map .ok) =
      .error (.error (.malformed 0 (.valueCount numVars model.length))) := by
  obtain ⟨rest, body, hstatus, hbody, hlists⟩ := h.seekStatus
  have hread : rest.foldlM (readLine numVars) #[] = .ok (#[] ++ model.toArray) :=
    foldlM_readLine_of_lists hlists hbody hrange (by simpa using Nat.le_of_lt hfew)
  rw [parse_of_seekStatus hstatus, if_pos hsize, hread]
  simp [Nat.ne_of_lt hfew]

/-- Too many value lines are found out at the first one there is no room for. -/
theorem parse_of_too_many (h : Spells numVars model lines)
    (hrange : ∀ l ∈ model, l.var.id ≤ numVars) (hsize : numVars * 4 ≤ Word.maxTableBytes)
    (hmany : numVars < model.length) : ∃ number, parse (lines.map .ok) =
      .error (.error (.malformed number (.unexpectedToken "v" numVars))) := by
  obtain ⟨rest, body, hstatus, hbody, hlists⟩ := h.seekStatus
  obtain ⟨number, hread⟩ : ∃ number, rest.foldlM (readLine numVars) #[] =
      .error (.malformed number (.unexpectedToken "v" numVars)) :=
    foldlM_readLine_of_overfull hlists hbody hrange (by simp) (by simpa using hmany)
  refine ⟨number, ?_⟩
  rw [parse_of_seekStatus hstatus, if_pos hsize, hread]

/-- The table is asked for before any value line is looked at. -/
theorem parse_of_oversized (h : Spells numVars model lines)
    (hsize : Word.maxTableBytes < numVars * 4) :
    parse (lines.map .ok) = .error (.fault .capacity) := by
  obtain ⟨rest, body, hstatus, _⟩ := h.seekStatus
  rw [parse_of_seekStatus hstatus, if_neg (Nat.not_le.mpr hsize)]

end Reading

section Order

variable {numVars : Nat} {model : List Literal}

/-- As many literals as there are variables hold one literal of each variable, in
    the order of the variables, as soon as their variables ascend. -/
theorem map_id_eq_range'_iff (hlength : model.length = numVars)
    (hrange : ∀ l ∈ model, l.var.id ≤ numVars) :
    (model.map fun l => l.var.id) = List.range' 1 numVars ↔
      model.Pairwise fun l m => l.var.id < m.var.id := by
  rw [← List.pairwise_map (f := fun l : Literal => l.var.id) (R := (· < ·))]
  constructor
  · intro h
    rw [h]
    exact List.pairwise_lt_range'
  · intro h
    have hsubset : (model.map fun l => l.var.id) ⊆ List.range' 1 numVars := by
      intro id hid
      obtain ⟨l, hl, rfl⟩ := List.mem_map.mp hid
      have hone := l.var.one_le
      have hle := hrange l hl
      rw [List.mem_range'_1]
      omega
    have hnodup : (model.map fun l => l.var.id).Nodup := h.imp Nat.ne_of_lt
    have hperm : (model.map fun l => l.var.id).Perm (List.range' 1 numVars) :=
      (hnodup.subperm hsubset).perm_of_length_le (by simp [hlength])
    refine hperm.eq_of_pairwise ?_ h List.pairwise_lt_range'
    intro i j _ _ hless hgreater
    exact absurd hgreater (Nat.lt_asymm hless)

/-- The model that is read holds the literals of the value lines in their order. It
    has as many as there are variables, and all are literals of these variables, but
    it holds one literal of each variable in the order of the variables if and only
    if the variables of the value lines ascend. -/
theorem parse_in_order_iff {source : Source}
    (h : parse source = .ok (.satisfiable numVars model)) :
    (∃ lines, source = lines.map .ok ∧ Spells numVars model lines) ∧ model.length = numVars ∧
      (∀ l ∈ model, 1 ≤ l.var.id ∧ l.var.id ≤ numVars) ∧
      ((model.map fun l => l.var.id) = List.range' 1 numVars ↔
        model.Pairwise fun l m => l.var.id < m.var.id) := by
  obtain ⟨hlines, _, hlength, hrange⟩ := parse_eq_satisfiable_iff.mp h
  exact ⟨hlines, hlength, fun l hl => ⟨l.var.one_le, hrange l hl⟩,
    map_id_eq_range'_iff hlength hrange⟩

/-- The second text gives the first variable both values and the second none. -/
theorem parse_in_order_iff_of_two_variables :
    (∃ model, parse (.ofString "c in order\ns cnf 1 2\n\nv 1\nv -2\n") =
        .ok (.satisfiable 2 model) ∧
      (model.map fun l => l.var.id) = List.range' 1 2) ∧
    ∃ model, parse (.ofString "s cnf 1 2\nv 1\nv -1\n") = .ok (.satisfiable 2 model) ∧
      (model.map fun l => l.var.id) ≠ List.range' 1 2 := by
  constructor
  · obtain ⟨model, hparse, hascends⟩ : ∃ model : List Literal,
        parse (.ofString "c in order\ns cnf 1 2\n\nv 1\nv -2\n") = .ok (.satisfiable 2 model) ∧
          model.Pairwise fun l m => l.var.id < m.var.id := ⟨_, rfl, by decide⟩
    exact ⟨model, hparse, (parse_in_order_iff hparse).2.2.2.mpr hascends⟩
  · obtain ⟨model, hparse, hfalls⟩ : ∃ model : List Literal,
        parse (.ofString "s cnf 1 2\nv 1\nv -1\n") = .ok (.satisfiable 2 model) ∧
          ¬ model.Pairwise fun l m => l.var.id < m.var.id := ⟨_, rfl, by decide⟩
    exact ⟨model, hparse, fun horder => hfalls ((parse_in_order_iff hparse).2.2.2.mp horder)⟩

end Order

section Count

variable {text : String} {numVars : Nat} {model : List Literal}

/-- A text with too few or too many value lines is rejected with an error about the
    text, as long as a table for the declared number of variables can be addressed.
    For larger numbers reading stops at a fault before the first value line. Memory is
    taken as unlimited up to that bound: a table that can be addressed is laid out, so
    running out of memory below it is not described here. -/
theorem parse_rejects_wrong_count_iff
    (htext : Spells numVars model (splitLines '\n' '\r' text.toList))
    (hrange : ∀ l ∈ model, l.var.id ≤ numVars) (hcount : model.length ≠ numVars) :
    ((∃ number defect, parse (.ofString text) = .error (.error (.malformed number defect))) ↔
      numVars < 2 ^ 61) ∧
    (2 ^ 61 ≤ numVars → parse (.ofString text) = .error (.fault .capacity)) := by
  have hoversized (hlarge : 2 ^ 61 ≤ numVars) :
      parse (.ofString text) = .error (.fault .capacity) := by
    refine parse_of_oversized htext ?_
    simp only [Word.maxTableBytes]
    omega
  refine ⟨⟨?_, fun hsmall => ?_⟩, hoversized⟩
  · rintro ⟨number, defect, hparse⟩
    by_contra hlarge
    rw [hoversized (Nat.le_of_not_gt hlarge)] at hparse
    cases hparse
  · have hsize : numVars * 4 ≤ Word.maxTableBytes := by
      simp only [Word.maxTableBytes]
      omega
    rcases Nat.lt_or_gt_of_ne hcount with hfew | hmany
    · exact ⟨0, _, parse_of_too_few htext hrange hsize hfew⟩
    · obtain ⟨number, hparse⟩ := parse_of_too_many htext hrange hsize hmany
      exact ⟨number, _, hparse⟩

/-- The largest number of variables that a status line can declare is far beyond
    what a table can hold. -/
theorem parse_rejects_wrong_count_of_extremes :
    (∃ number defect, parse (.ofString "c three\ns cnf 1 3\nv 1\n\nv -1\n") =
      .error (.error (.malformed number defect))) ∧
    (∃ number defect, parse (.ofString "s cnf 1 1\nv 1\nv -1\n") =
      .error (.error (.malformed number defect))) ∧
    parse (.ofString "s cnf 1 18446744073709551615\n") = .error (.fault .capacity) := by
  let positive : Literal := ⟨1, by decide, by decide⟩
  have hpositive : IsValue positive "v 1".toList :=
    ⟨_, rfl, (Numeral.readInt32_eq_ok_iff.mp rfl).1⟩
  have hnegative : IsValue positive.negate "v -1".toList :=
    ⟨_, rfl, (Numeral.readInt32_eq_ok_iff.mp rfl).1⟩
  have hstatus {line : List Char} {code count : List Char} {numVars : Nat}
      (hfields : fields line = [['s'], ['c', 'n', 'f'], code, count])
      (hcode : Numeral.readInt32 code = .ok 1) (hcount : Numeral.readWord count = .ok numVars) :
      IsStatus .satisfiable numVars line :=
    ⟨code, count, hfields, (Numeral.readInt32_eq_ok_iff.mp hcode).1,
      Numeral.readWord_eq_ok_iff.mp hcount⟩
  have hfew : Spells 3 [positive, positive.negate]
      (splitLines '\n' '\r' "c three\ns cnf 1 3\nv 1\n\nv -1\n".toList) :=
    @Spells.intro _ _ ["c three".toList] "s cnf 1 3".toList ["v 1".toList, [], "v -1".toList]
      (by decide) (hstatus rfl rfl rfl)
      (.value hpositive (.idle (.inl rfl) (.value hnegative .nil)))
  have hmany : Spells 1 [positive, positive.negate]
      (splitLines '\n' '\r' "s cnf 1 1\nv 1\nv -1\n".toList) :=
    @Spells.intro _ _ [] "s cnf 1 1".toList ["v 1".toList, "v -1".toList] (by decide)
      (hstatus rfl rfl rfl) (.value hpositive (.value hnegative .nil))
  have hlarge : Spells 18446744073709551615 []
      (splitLines '\n' '\r' "s cnf 1 18446744073709551615\n".toList) :=
    @Spells.intro _ _ [] "s cnf 1 18446744073709551615".toList [] (by decide)
      (hstatus rfl rfl rfl) .nil
  exact ⟨(parse_rejects_wrong_count_iff hfew (by decide) (by decide)).1.mpr (by decide),
    (parse_rejects_wrong_count_iff hmany (by decide) (by decide)).1.mpr (by decide),
    (parse_rejects_wrong_count_iff hlarge (by decide) (by decide)).2 (by decide)⟩

end Count

end Solution

end Clausal
