import Clausal.Proofs.Formula

namespace Clausal

namespace Valuation

/-- The valuation follows a list of literals on the variables 1 to `numVars`. A
    variable has the polarity of its last occurrence in the list and is false if it
    does not occur. -/
structure Follows (v : Valuation) (numVars : Nat) (model : List Literal) : Prop where
  last : ∀ (front : List Literal) (l : Literal) (behind : List Literal),
    model = front ++ l :: behind → (∀ m ∈ behind, m.var ≠ l.var) → l.var.id ≤ numVars →
      v l.var = l.polarity
  absent : ∀ x : Variable, (∀ m ∈ model, m.var ≠ x) → x.id ≤ numVars → v x = false

/-- The last occurrence of a variable decides. -/
theorem ofModel_of_last {l : Literal} {behind : List Literal} (h : ∀ m ∈ behind, m.var ≠ l.var)
    (front : List Literal) : ofModel (front ++ l :: behind) l.var = l.polarity := by
  have hfind : (front ++ l :: behind).reverse.find? (fun m => m.var = l.var) = some l := by
    rw [List.find?_eq_some_iff_append]
    exact ⟨by simp, behind.reverse, front.reverse, by simp, by simpa using h⟩
  rw [ofModel, hfind]
  rfl

/-- A variable that does not occur in the model is false. -/
theorem ofModel_of_absent {model : List Literal} {x : Variable} (h : ∀ m ∈ model, m.var ≠ x) :
    ofModel model x = false := by
  have hfind : model.reverse.find? (fun m => m.var = x) = none := by
    rw [List.find?_eq_none]
    simpa using h
  rw [ofModel, hfind]
  rfl

/-- A variable that occurs in a list of literals has a last occurrence there. -/
theorem exists_last_occurrence {model : List Literal} {x : Variable} (h : ∃ m ∈ model, m.var = x) :
    ∃ (front : List Literal) (l : Literal) (behind : List Literal),
      model = front ++ l :: behind ∧ l.var = x ∧ ∀ m ∈ behind, m.var ≠ x := by
  obtain ⟨m, hm, hvar⟩ := h
  have hfound : (model.reverse.find? fun l => l.var = x).isSome := by
    rw [List.find?_isSome]
    exact ⟨m, List.mem_reverse.mpr hm, by simpa using hvar⟩
  obtain ⟨l, hfind⟩ := Option.isSome_iff_exists.mp hfound
  obtain ⟨hl, behind, front, hsplit, hbehind⟩ := List.find?_eq_some_iff_append.mp hfind
  refine ⟨front.reverse, l, behind.reverse, ?_, by simpa using hl, by simpa using hbehind⟩
  rw [← List.reverse_reverse model, hsplit]
  simp

/-- The rule of the last occurrence fixes the values of the variables up to
    `numVars` and leaves the others open. -/
theorem follows_iff {v : Valuation} {numVars : Nat} {model : List Literal} :
    v.Follows numVars model ↔ ∀ x : Variable, x.id ≤ numVars → v x = ofModel model x := by
  constructor
  · intro h x hx
    by_cases hoccurs : ∃ m ∈ model, m.var = x
    · obtain ⟨front, l, behind, rfl, rfl, hbehind⟩ := exists_last_occurrence hoccurs
      rw [h.last front l behind rfl hbehind hx, ofModel_of_last hbehind]
    · have habsent : ∀ m ∈ model, m.var ≠ x := fun m hm hvar => hoccurs ⟨m, hm, hvar⟩
      rw [h.absent x habsent hx, ofModel_of_absent habsent]
  · intro h
    constructor
    · rintro front l behind rfl hbehind hrange
      rw [h l.var hrange, ofModel_of_last hbehind]
    · intro x habsent hrange
      rw [h x hrange, ofModel_of_absent habsent]

/-- Clauses over the variables 1 to `numVars` do not tell two valuations apart that
    agree on these variables. -/
theorem satisfies_congr {v w : Valuation} {numVars : Nat} {clauses : List Clause}
    (hrange : ∀ c ∈ clauses, ∀ l ∈ c, l.var.id ≤ numVars)
    (h : ∀ x : Variable, x.id ≤ numVars → v x = w x) :
    v.Satisfies clauses ↔ w.Satisfies clauses := by
  refine forall₂_congr fun c hc => exists_congr fun l => and_congr_right fun hl => ?_
  rw [Makes, Makes, h l.var (hrange c hc l hl)]

end Valuation

namespace Formula

/-- Checking a solution of a valid formula gives an answer, whatever literals its
    model lists. The answer is true if and only if the solution is satisfiable and
    the valuation that follows the model makes a literal of every clause true. Such a
    valuation exists, and it does not matter which one is taken. -/
theorem verify_exact {f : Formula} (hvalid : f.validate = .ok ()) (solution : Solution) :
    ∃ answer, f.verify solution = .ok answer ∧
      (∃ v : Valuation, v.Follows f.numVars (solution.model?.getD [])) ∧
      ∀ v : Valuation, v.Follows f.numVars (solution.model?.getD []) →
        (answer = true ↔ solution.verdict = .satisfiable ∧ v.Satisfies f.clauses) := by
  have hf := validate_eq_ok_iff.mp hvalid
  obtain ⟨answer, hverify, hanswer⟩ := verify_spec hf solution
  refine ⟨answer, hverify, ⟨_, Valuation.follows_iff.mpr fun _ _ => rfl⟩, fun v hv => ?_⟩
  have hsatisfies := Valuation.satisfies_congr hf.range (Valuation.follows_iff.mp hv)
  rw [hanswer]
  cases solution with
  | satisfiable numVars model =>
    simpa [Solution.model?, Solution.verdict] using hsatisfies.symm
  | unsatisfiable numVars => simp [Solution.model?, Solution.verdict]
  | unknown numVars => simp [Solution.model?, Solution.verdict]

/-- The first model repeats and contradicts itself and names a variable that the
    formula does not have. The last literal of the second one spoils it, and the
    third one does not mention the variables of the second clause. -/
theorem verify_exact_of_irregular_models :
    ∃ f good spoiled short, ofRows [[1, -2], [2, 3]] = .ok f ∧ f.validate = .ok () ∧
      Clause.ofInts [-1, 7, 2, 3, 1, 1, -2] = .ok good ∧
      Clause.ofInts [1, 3, -3] = .ok spoiled ∧ Clause.ofInts [1] = .ok short ∧
      f.verify (.satisfiable 7 good) = .ok true ∧ f.verify (.satisfiable 3 spoiled) = .ok false ∧
      f.verify (.satisfiable 3 short) = .ok false ∧ f.verify (.unknown 3) = .ok false := by
  have hanswer {f : Formula} (hvalid : f.validate = .ok ()) {solution : Solution} {expected : Bool}
      (hexpected : decide (solution.verdict = .satisfiable ∧
        (Valuation.ofModel (solution.model?.getD [])).Satisfies f.clauses) = expected) :
      f.verify solution = .ok expected := by
    obtain ⟨answer, hverify, _, hfollows⟩ := verify_exact hvalid solution
    have hiff := hfollows _ (Valuation.follows_iff.mpr fun _ _ => rfl)
    rw [hverify, ← hexpected]
    exact congrArg Except.ok (Bool.eq_iff_iff.mpr (hiff.trans decide_eq_true_iff.symm))
  exact ⟨_, _, _, _, rfl, rfl, rfl, rfl, rfl, hanswer rfl (by decide), hanswer rfl (by decide),
    hanswer rfl (by decide), hanswer rfl (by decide)⟩

end Formula

end Clausal
