import Clausal.Proofs.Reduction.Agreement

namespace Clausal

namespace Pass

/-- One round, and then the others if it has changed something. -/
theorem runToFixpoint_eq (pass : Pass) (r : Reduct) :
    pass.runToFixpoint r =
      match pass.run r with
      | .error failure => .error failure
      | .ok r' => if isStable r r' then .ok r' else pass.runToFixpoint r' := by
  rw [runToFixpoint]
  split
  next hrun => rw [hrun]
  next hrun => rw [hrun]

/-- A round that changes neither the clauses nor the number of variables with a
    value changes nothing at all. -/
theorem eq_of_isStable {pass : Pass} {r r' : Reduct} (hmax : r.assignment.numVars ≤ Variable.maxId)
    (hcovered : r.Covered) (hrun : pass.run r = .ok r') (hstable : isStable r r' = true) :
    r' = r := by
  have hcorrect := correct_run pass hcovered
  rw [hrun] at hcorrect
  obtain ⟨hclauses, hfixed⟩ := isStable_iff.mp hstable
  have hassignment := hcorrect.keeps.eq_of_fixedCount hcorrect.numVars hmax hfixed
  obtain ⟨clauses, a⟩ := r
  obtain ⟨clauses', a'⟩ := r'
  simp only [Reduct.mk.injEq]
  exact ⟨hclauses, hassignment⟩

/-- The first round of a fixpoint can be left out. If it is the last one, it has
    changed nothing. -/
theorem runToFixpoint_run {pass : Pass} {r r' : Reduct}
    (hmax : r.assignment.numVars ≤ Variable.maxId) (hcovered : r.Covered)
    (hrun : pass.run r = .ok r') : pass.runToFixpoint r = pass.runToFixpoint r' := by
  by_cases hstable : isStable r r' = true
  · rw [eq_of_isStable hmax hcovered hrun hstable]
  · rw [runToFixpoint_eq, hrun]
    exact if_neg hstable

/-- Two results coincide if they are the same up to the cause of a
    contradiction. -/
inductive Coincide : Reduced → Reduced → Prop
  | ok (r : Reduct) : Coincide (.ok r) (.ok r)
  | contradiction (cause cause' : Contradiction) :
      Coincide (.error (.error cause)) (.error (.error cause'))

/-- A result that coincides with a reduct is that reduct. -/
theorem Coincide.eq_ok {result : Reduced} {r : Reduct} (h : Coincide result (.ok r)) :
    result = .ok r := by
  cases h
  rfl

/-- A correct result coincides with itself. -/
theorem Coincide.of_correct {r : Reduct} {result : Reduced} (h : Correct r result) :
    Coincide result result := by
  match result with
  | .ok r' => exact .ok r'
  | .error (.error cause) => exact .contradiction cause cause
  | .error (.fault _) => exact h.elim

/-- A chain can be cut into two that run one after the other. -/
theorem runAll_append (passes passes' : List Pass) (r : Reduct) :
    runAll (passes ++ passes') r =
      match runAll passes r with
      | .ok r' => runAll passes' r'
      | .error failure => .error failure := by
  induction passes generalizing r with
  | nil => rfl
  | cons first rest ih =>
    simp only [List.cons_append, runAll]
    cases first.run r with
    | ok r' => exact ih r'
    | error failure => rfl

/-- A chain that ends with the canonical form hides in which form the clauses
    were given. -/
theorem coincide_canonical (passes : List Pass) {clauses clauses' : List Clause} {a : Assignment}
    (hmax : a.numVars ≤ Variable.maxId) (hcovered : Reduct.Covered ⟨clauses, a⟩)
    (h : Alike clauses clauses') :
    Coincide (run (.chain (passes ++ [.simplify])) ⟨clauses, a⟩)
      (run (.chain (passes ++ [.simplify])) ⟨clauses', a⟩) := by
  have hagree := agree_runAll passes hmax hcovered h
  rw [run, run, runAll_append, runAll_append]
  generalize runAll passes ⟨clauses, a⟩ = result, runAll passes ⟨clauses', a⟩ = result' at hagree
  cases hagree with
  | contradiction => exact .contradiction _ _
  | ok a' h' =>
    simp only [runAll, run, h'.simplify_eq]
    exact .ok _

/-- If the first rounds coincide, so do the fixpoints, even where one of them
    needs a round more. -/
theorem coincide_runToFixpoint {pass : Pass} {r r' : Reduct}
    (hmax : r.assignment.numVars ≤ Variable.maxId) (hcovered : r.Covered)
    (hmax' : r'.assignment.numVars ≤ Variable.maxId) (hcovered' : r'.Covered)
    (h : Coincide (pass.run r) (pass.run r')) :
    Coincide (pass.runToFixpoint r) (pass.runToFixpoint r') := by
  have hrefl := Coincide.of_correct (correct_runToFixpoint pass hcovered)
  generalize hrun : pass.run r = result, hrun' : pass.run r' = result' at h
  cases h with
  | contradiction =>
    rw [runToFixpoint_eq pass r, runToFixpoint_eq pass r', hrun, hrun']
    exact .contradiction _ _
  | ok s =>
    rw [runToFixpoint_run hmax hcovered hrun] at hrefl ⊢
    rwa [runToFixpoint_run hmax' hcovered' hrun']

end Pass

end Clausal
