import Clausal.Proofs.Formula
import Clausal.Proofs.Reduction.Passes

namespace Clausal

namespace Formula

/-- The canonical form of a well-formed formula is well-formed. -/
theorem WellFormed.simplify {f : Formula} (hf : f.WellFormed) : f.simplify.WellFormed := by
  refine ⟨hf.numVars, fun c hc hnil => ?_, fun c hc l hl => ?_⟩
  · obtain ⟨d, hd, hcanonical⟩ := exists_of_mem_simplify hc
    obtain ⟨l, hl⟩ := List.exists_mem_of_ne_nil d (hf.nonempty d hd)
    have hmem : l ∈ d.canonical := mem_sortDistinct.mpr hl
    rw [hcanonical, hnil] at hmem
    cases hmem
  · obtain ⟨d, hd, rfl⟩ := exists_of_mem_simplify hc
    exact hf.range d hd l (mem_sortDistinct.mp hl)

/-- A formula and its canonical form agree on every solution, also if it is
    malformed, because a literal of a variable that is out of range counts as
    false in both. -/
theorem verify_simplify (f : Formula) (solution : Solution) :
    f.simplify.verify solution = f.verify solution := by
  have hanswer (holds : Literal → Bool) :
      (f.simplify.clauses.all fun c => c.any holds) = f.clauses.all fun c => c.any holds := by
    rw [Bool.eq_iff_iff]
    simp only [List.all_eq_true, List.any_eq_true]
    exact forall_mem_simplify
  have hnumVars : f.simplify.numVars = f.numVars := rfl
  simp only [verify, hnumVars, hanswer]

/-- Bringing a formula into canonical form keeps its solutions, its variables and
    its validity, and makes the declared number of clauses the true one. -/
theorem simplify_keeps_meaning (f : Formula) :
    (∀ v : Valuation, v.Satisfies f.simplify.clauses ↔ v.Satisfies f.clauses) ∧
    (∀ solution, f.simplify.verify solution = f.verify solution) ∧
    f.simplify.numVars = f.numVars ∧ f.simplify.declared = f.simplify.clauses.length ∧
    (f.validate = .ok () → f.simplify.validate = .ok ()) := by
  refine ⟨fun v => Valuation.satisfies_simplify, f.verify_simplify, rfl, rfl, fun hvalid => ?_⟩
  exact validate_eq_ok_iff.mpr (validate_eq_ok_iff.mp hvalid).simplify

/-- A unit clause covers two others, and a repeated literal makes a second unit. -/
theorem simplify_keeps_meaning_of_covered_clauses :
    ∃ f, ofRows [[2, 1], [-3, -3], [-3, 2], [1], [1, 2], [1, 3, 2]] = .ok f ∧
      f.validate = .ok () ∧ f.simplify.validate = .ok () ∧
      ∀ v : Valuation, v.Satisfies f.simplify.clauses ↔ v.Satisfies f.clauses := by
  obtain ⟨f, hrows, hvalid⟩ :
      ∃ f, ofRows [[2, 1], [-3, -3], [-3, 2], [1], [1, 2], [1, 3, 2]] = .ok f ∧
        f.validate = .ok () := ⟨_, rfl, rfl⟩
  obtain ⟨hsatisfies, _, _, _, hkept⟩ := simplify_keeps_meaning f
  exact ⟨f, hrows, hvalid, hkept hvalid, hsatisfies⟩

end Formula

end Clausal
