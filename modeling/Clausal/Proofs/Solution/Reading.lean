import Clausal.Proofs.Solution.Grammar

namespace Clausal

namespace Solution

open Text

/-- The solutions that a text can hold. -/
def Legible : Solution → Prop
  | .satisfiable numVars model =>
    numVars * 4 ≤ Word.maxTableBytes ∧ model.length = numVars ∧ ∀ l ∈ model, l.var.id ≤ numVars
  | .unsatisfiable numVars => numVars < Word.bound
  | .unknown numVars => numVars < Word.bound

variable {s : Solution} {numVars : Nat}

/-- What is read when the status line holds a verdict and a number of variables
    and `rest` follows it. -/
def Holds (numVars : Nat) (rest : Numbered) : Verdict → Solution → Prop
  | .satisfiable, s =>
    numVars * 4 ≤ Word.maxTableBytes ∧ ∃ model : Array Literal,
      rest.foldlM (readLine numVars) #[] = .ok model ∧ model.size = numVars ∧
        .satisfiable numVars model.toList = s
  | .unsatisfiable, s => .unsatisfiable numVars = s
  | .unknown, s => .unknown numVars = s

/-- A text can be read if there is a status line and what its verdict asks for follows
    it. -/
theorem parse_eq_ok_iff {source : Source} :
    parse source = .ok s ↔ ∃ verdict numVars rest,
      seekStatus (source.zipIdx 1) = .ok ((verdict, numVars), rest) ∧
        Holds numVars rest verdict s := by
  simp only [parse, bind_eq_ok_iff, lift_error_eq_ok_iff, Prod.exists]
  refine exists_congr fun verdict => exists_congr fun numVars => exists_congr fun rest =>
    and_congr_right fun _ => ?_
  cases verdict with
  | unsatisfiable => simp only [Holds, pure, Except.pure, Except.ok.injEq]
  | unknown => simp only [Holds, pure, Except.pure, Except.ok.injEq]
  | satisfiable =>
    have hcount (model : Array Literal) :
        (if model.size ≠ numVars then do
            throw (.error (.malformed 0 (.valueCount numVars model.size)))
            pure (satisfiable numVars model.toList)
          else pure (satisfiable numVars model.toList) : Except (Failure Error) Solution) = .ok s ↔
        model.size = numVars ∧ satisfiable numVars model.toList = s := by
      by_cases h : model.size = numVars
      · simp [h, pure, Except.pure]
      · simp [h, bind, Except.bind, throw, throwThe, MonadExceptOf.throw]
    have htable : (∃ u, Word.checkTable numVars 4 = .ok u) ↔ numVars * 4 ≤ Word.maxTableBytes := by
      unfold Word.checkTable
      split <;> simp_all
    simp only [Holds, bind_eq_ok_iff, lift_fault_eq_ok_iff, lift_error_eq_ok_iff, hcount,
      exists_and_right, htable]

/-- Only legible solutions are read. -/
theorem legible_of_parse {source : Source} (h : parse source = .ok s) : s.Legible := by
  obtain ⟨verdict, numVars, rest, hstatus, hholds⟩ := parse_eq_ok_iff.mp h
  obtain ⟨_, _, _, _, _, _, _, hline⟩ := seekStatus_eq_ok_iff.mp hstatus
  have hbound := hline.numVars_lt
  cases verdict with
  | unsatisfiable =>
    obtain rfl := hholds
    exact hbound
  | unknown =>
    obtain rfl := hholds
    exact hbound
  | satisfiable =>
    obtain ⟨hsize, _, hread, hcount, rfl⟩ := hholds
    obtain ⟨model, _, _, _, hrange, rfl⟩ := lists_of_foldlM_readLine hread
    exact ⟨hsize, hcount, by simpa using hrange⟩

end Solution

end Clausal
