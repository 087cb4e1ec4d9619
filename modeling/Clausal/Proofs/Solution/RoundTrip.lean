import Clausal.Proofs.Assignment
import Clausal.Proofs.Solution.Reading
import Clausal.Proofs.Solver.Correctness

namespace Clausal

namespace Solution

open Text

/-- The fields of a status line. -/
def statusRow (verdict : Verdict) (numVars : Nat) : List (List Char) :=
  [['s'], ['c', 'n', 'f'], (toString verdict.code).toList, (toString numVars).toList]

/-- The fields of a value line. -/
def valueRow (l : Literal) : List (List Char) := [['v'], (toString l.value).toList]

/-- The fields of the lines that a solution is written as. -/
def rows (s : Solution) : List (List (List Char)) :=
  statusRow s.verdict s.numVars :: (s.model?.getD []).map valueRow

private theorem isToken_of_mem_value (l : Literal) : ∀ token ∈ valueRow l, IsToken token := by
  simp only [valueRow, List.forall_mem_cons]
  exact ⟨by decide, Numeral.isToken_toString_int _, List.forall_mem_nil _⟩

private theorem isToken_of_mem_status (verdict : Verdict) (numVars : Nat) :
    ∀ token ∈ statusRow verdict numVars, IsToken token := by
  simp only [statusRow, List.forall_mem_cons]
  exact ⟨by decide, by decide, Numeral.isToken_toString_int _, Numeral.isToken_toString _,
    List.forall_mem_nil _⟩

private theorem isToken_of_mem_rows (s : Solution) :
    ∀ row ∈ rows s, ∀ token ∈ row, IsToken token :=
  List.forall_mem_cons.mpr ⟨isToken_of_mem_status s.verdict s.numVars,
    List.forall_mem_map.mpr fun l _ => isToken_of_mem_value l⟩

/-- A solution is written as its rows, with blanks between the fields and a line
    end behind each row. -/
theorem toList_render (s : Solution) :
    s.render.toList = (rows s).flatMap fun row => spaced row ++ ['\n'] := by
  have hmodel (model : List Literal) :
      (String.join (model.map fun l => "v " ++ l.render ++ "\n")).toList =
        (model.map valueRow).flatMap fun row => spaced row ++ ['\n'] := by
    rw [String.toList_join, List.flatMap_map, List.flatMap_map]
    apply List.flatMap_congr
    intro l _
    rw [String.toList_append, String.toList_append, valueRow, spaced,
      List.intercalate_cons_cons, List.intercalate_singleton]
    rfl
  rw [render, String.toList_append, hmodel, rows, List.flatMap_cons]
  congr 1
  simp [statusRow, spaced]
  rfl

section RoundTrip

variable {s : Solution} {numVars : Nat}

/-- The number of variables of a legible solution is a word. -/
theorem Legible.numVars_lt (h : s.Legible) : s.numVars < Word.bound := by
  cases s with
  | satisfiable numVars model =>
    have hsize := h.1
    simp only [Word.maxTableBytes] at hsize
    simp only [Solution.numVars, Word.bound]
    omega
  | unsatisfiable numVars => exact h
  | unknown numVars => exact h

private theorem isStatus_spaced (verdict : Verdict) (hvars : numVars < Word.bound) :
    IsStatus verdict numVars (spaced (statusRow verdict numVars)) :=
  ⟨_, _, fields_spaced (isToken_of_mem_status verdict numVars), Numeral.signed_toString _,
    .inl (Numeral.digits_toString numVars), hvars⟩

private theorem lists_spaced (model : List Literal) :
    Lists model ((model.map valueRow).map spaced) := by
  induction model with
  | nil => exact .nil
  | cons l rest ih =>
    exact .value ⟨_, fields_spaced (isToken_of_mem_value l), Numeral.signed_toString _⟩ ih

/-- A legible solution is read back from its text. -/
theorem parse_render (h : s.Legible) : parse (.ofString s.render) = .ok s := by
  have hsource : Source.ofString s.render = ((rows s).map spaced).map .ok := by
    rw [Source.ofString, Source.ofText, toList_render, splitLines_spaced (isToken_of_mem_rows s)]
  rw [rows, List.map_cons, List.map_cons] at hsource
  rw [parse_eq_ok_iff, hsource, List.zipIdx_cons]
  have hstatus := isStatus_spaced s.verdict h.numVars_lt
  refine ⟨_, _, _, seekStatus_eq_ok_iff.mpr
    ⟨[], [], _, 1, rfl, rfl, List.forall_mem_nil _, hstatus⟩, ?_⟩
  cases s with
  | unsatisfiable numVars => rfl
  | unknown numVars => rfl
  | satisfiable numVars model =>
    obtain ⟨hsize, rfl, hrange⟩ := h
    exact ⟨hsize, _, foldlM_readLine_of_lists (lists_spaced model) (List.zipIdx_map_fst 2 _) hrange
      (by simp [Solution.numVars]), by simp [Solution.numVars], by simp [Solution.numVars]⟩

/-- The numbers of variables and the models that solutions of formulas have. -/
def Regular : Solution → Prop
  | .satisfiable numVars model =>
    numVars ≤ Variable.maxId ∧ model.length = numVars ∧ ∀ l ∈ model, l.var.id ≤ numVars
  | .unsatisfiable numVars => numVars < Word.bound
  | .unknown numVars => numVars < Word.bound

/-- A regular solution can be the content of a text. -/
theorem Regular.legible (h : s.Regular) : s.Legible := by
  cases s with
  | unsatisfiable numVars => exact h
  | unknown numVars => exact h
  | satisfiable numVars model =>
    obtain ⟨hmax, hmodel⟩ := h
    refine ⟨?_, hmodel⟩
    simp only [Variable.maxId, Word.maxTableBytes] at hmax ⊢
    omega

/-- The answers of a solve are regular. -/
theorem regular_of_answers {f : Formula} {fires : Nat → Bool} (hf : f.WellFormed)
    (h : Solver.Answers f fires s) : s.Regular := by
  have hmax := hf.numVars
  have hbound : f.numVars < Word.bound := by
    simp only [Variable.maxId, Word.bound] at hmax ⊢
    omega
  cases h with
  | unsatisfiable => exact hbound
  | unknown => exact hbound
  | satisfiable hnumVars =>
    rw [← hnumVars] at hmax
    have hlength := Assignment.length_model hmax
    exact ⟨hlength ▸ hmax, rfl, fun l hl => hlength ▸ (Assignment.mem_model.mp hl).1⟩

/-- Every regular solution, which includes every result of a solve, is read back
    from its text, and so is every solution that has been read from any text. -/
theorem text_round_trip :
    (∀ s : Solution, s.Regular → parse (.ofString s.render) = .ok s) ∧
    (∀ options interrupt f log s,
      (Solver.solve options interrupt f log).result = .ok s → s.Regular) ∧
    ∀ source s, parse source = .ok s → parse (.ofString s.render) = .ok s := by
  refine ⟨fun s h => parse_render h.legible, fun options interrupt f log s h => ?_,
    fun source s h => parse_render (legible_of_parse h)⟩
  have hf := Solver.wellFormed_of_solve h
  exact regular_of_answers hf (.of_solve hf h)

/-- The text of a solution may hold comments and blank lines, and its literals need
    not be in the order of their variables. -/
theorem text_round_trip_of_comments :
    parse (.ofString (unknown 18446744073709551615).render) = .ok (.unknown 18446744073709551615) ∧
    ∃ s, parse (.ofString "c two\ns cnf 1 2\n\nv 2\nc\nv -1\n") = .ok s ∧ s.model?.isSome ∧
      parse (.ofString s.render) = .ok s := by
  obtain ⟨s, hparse, hmodel⟩ : ∃ s, parse (.ofString "c two\ns cnf 1 2\n\nv 2\nc\nv -1\n") = .ok s ∧
      s.model?.isSome := ⟨_, rfl, rfl⟩
  exact ⟨text_round_trip.1 _ (show _ < Word.bound by decide), s, hparse, hmodel,
    text_round_trip.2.2 _ s hparse⟩

end RoundTrip

end Solution

end Clausal
