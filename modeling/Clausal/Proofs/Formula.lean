import Clausal.Formula
import Clausal.Proofs.Fault
import Clausal.Proofs.Model

namespace Clausal

namespace Formula

/-- What validation checks. -/
structure WellFormed (f : Formula) : Prop where
  numVars : f.numVars ≤ Variable.maxId
  nonempty : ∀ c ∈ f.clauses, c ≠ []
  range : ∀ c ∈ f.clauses, ∀ l ∈ c, l.var.id ≤ f.numVars

private theorem checkRange_eq_ok_iff {c : Clause} {numVars : Nat} :
    c.checkRange numVars = .ok () ↔ ∀ l ∈ c, l.var.id ≤ numVars := by
  unfold Clause.checkRange
  cases hfind : c.find? fun l => decide (numVars < l.var.id) with
  | none => simpa using hfind
  | some l =>
    have hmem := List.mem_of_find?_eq_some hfind
    have hlarge := List.find?_some hfind
    simp only [reduceCtorEq, false_iff]
    intro hall
    have hle := hall l hmem
    simp only [decide_eq_true_eq] at hlarge
    omega

/-- Validation accepts exactly the well-formed formulas. -/
theorem validate_eq_ok_iff {f : Formula} : f.validate = .ok () ↔ f.WellFormed := by
  have hclause (c : Clause) (i : Nat) :
      (if c.isEmpty then throw (.emptyClause i) else c.checkRange f.numVars) =
        Except.ok () ↔ c ≠ [] ∧ ∀ l ∈ c, l.var.id ≤ f.numVars := by
    cases c with
    | nil => simp [throw, throwThe, MonadExceptOf.throw]
    | cons l c => simp [checkRange_eq_ok_iff]
  have hclauses : (f.clauses.zipIdx.forM fun x =>
      if x.1.isEmpty then throw (.emptyClause x.2) else x.1.checkRange f.numVars) =
        Except.ok () ↔ ∀ c ∈ f.clauses, c ≠ [] ∧ ∀ l ∈ c, l.var.id ≤ f.numVars := by
    rw [forM_eq_ok_iff]
    simp only [hclause]
    constructor
    · intro h c hc
      obtain ⟨i, hi, rfl⟩ := List.mem_iff_getElem.mp hc
      exact h (f.clauses[i], i) (by simp [List.mem_zipIdx_iff_getElem?])
    · intro h x hx
      exact h x.1 (List.fst_mem_of_mem_zipIdx hx)
  unfold validate
  by_cases hmany : f.numVars > Variable.maxId
  · rw [if_pos hmany]
    simp only [throw, throwThe, MonadExceptOf.throw, bind, Except.bind, reduceCtorEq, false_iff]
    intro h
    exact Nat.not_lt.mpr h.numVars hmany
  · rw [if_neg hmany]
    refine hclauses.trans ⟨fun h => ?_, fun h c hc => ⟨h.nonempty c hc, h.range c hc⟩⟩
    exact ⟨Nat.le_of_not_gt hmany, fun c hc => (h c hc).1, fun c hc => (h c hc).2⟩

/-- A formula is made of clauses if it is well formed. -/
theorem ofClauses_eq_ok_iff {numVars : Nat} {clauses : List Clause} {f : Formula} :
    ofClauses numVars clauses = .ok f ↔
      (ofParts numVars clauses).WellFormed ∧ ofParts numVars clauses = f := by
  rw [← validate_eq_ok_iff, ofClauses]
  cases (ofParts numVars clauses).validate <;> simp [bind, Except.bind, pure, Except.pure]

/-- Later entries of the table replace earlier ones, so the last occurrence of a
    variable is the one that counts. -/
private theorem getD_lastPolarities (model : List Literal) (v : Variable) :
    (lastPolarities model).getD v.id false = Valuation.ofModel model v := by
  unfold lastPolarities Valuation.ofModel
  rw [List.foldl_eq_foldr_reverse]
  induction model.reverse with
  | nil => simp
  | cons l literals ih =>
    rw [List.foldr_cons, Std.HashMap.getD_insert, List.find?_cons]
    by_cases hvar : l.var = v
    · simp [hvar]
    · have hid : l.var.id ≠ v.id := fun hid => hvar (Variable.ext hid)
      simp only [hvar, hid, beq_iff_eq, if_false, decide_false]
      exact ih

/-- Checking a solution of a well-formed formula succeeds. The answer is true if
    and only if there is a model and it describes a satisfying valuation. -/
theorem verify_spec {f : Formula} (hf : f.WellFormed) (solution : Solution) :
    ∃ answer, f.verify solution = .ok answer ∧
      (answer = true ↔ ∃ model, solution.model? = some model ∧
        (Valuation.ofModel model).Satisfies f.clauses) := by
  unfold verify
  cases solution.model? with
  | none => exact ⟨false, rfl, by simp⟩
  | some model =>
    obtain ⟨hadd, htable⟩ := Word.table_of_le hf.numVars
    simp only [hadd, htable, bind, Except.bind]
    refine ⟨_, rfl, ?_⟩
    simp only [List.all_eq_true, List.any_eq_true, Bool.and_eq_true, decide_eq_true_eq,
      getD_lastPolarities, beq_iff_eq, Option.some.injEq, exists_eq_left']
    constructor
    · intro h c hc
      obtain ⟨l, hl, _, htrue⟩ := h c hc
      exact ⟨l, hl, htrue⟩
    · intro h c hc
      obtain ⟨l, hl, htrue⟩ := h c hc
      exact ⟨l, hl, hf.range c hc l hl, htrue⟩

end Formula

end Clausal
