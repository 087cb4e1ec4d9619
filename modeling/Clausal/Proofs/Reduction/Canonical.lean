import Clausal.Proofs.Reduction.Fixpoint

namespace Clausal

namespace Pass

variable {clauses : List Clause} {a : Assignment}

/-- Simplifying clauses without repetitions adds no clause. -/
theorem within_simplify (hnodup : ∀ c ∈ clauses, c.Nodup) :
    Within (Clausal.simplify clauses) clauses := by
  intro c hc
  obtain ⟨d, hd, rfl⟩ := exists_of_mem_simplify hc
  exact ⟨d, hd, (Clause.perm_canonical (hnodup d hd)).symm⟩

/-- The clauses that the canonical form leaves out are removed as soon as the
    literals of unit clauses are true. -/
theorem alike_reduceClauses (hnodup : ∀ c ∈ clauses, c.Nodup)
    (hunits : ∀ l, [l] ∈ clauses → a.literalValue? l = some true) :
    Alike (reduceClauses clauses a) (reduceClauses (Clausal.simplify clauses) a) := by
  refine ⟨fun c' hc' => ?_, (within_simplify hnodup).filterMap reduceClause_perm⟩
  obtain ⟨c, hc, hreduce⟩ := List.mem_filterMap.mp hc'
  rcases mem_simplify_or hnodup hc with hmem | ⟨l, hl, hunit⟩
  · obtain ⟨d', hreduce', hperm⟩ :=
      reduceClause_perm (Clause.perm_canonical (hnodup c hc)) hreduce
    exact ⟨d', List.mem_filterMap.mpr ⟨_, hmem, hreduce'⟩, hperm⟩
  · -- The clause may have been left out, but then it holds a true literal.
    have hsatisfied : a.satisfies c = true :=
      List.any_eq_true.mpr ⟨l, hl, beq_iff_eq.mpr (hunits l hunit)⟩
    rw [reduceClause, if_pos hsatisfied] at hreduce
    cases hreduce

private theorem runAll_singleton (pass : Pass) (r : Reduct) : runAll [pass] r = pass.run r := by
  rw [runAll]
  cases pass.run r <;> rfl

/-- Making the literals of unit clauses true and removing what that decides leaves
    alike clauses of a list and of its canonical form. -/
theorem agree_unit_reduce (hnodup : ∀ c ∈ clauses, c.Nodup) (hmax : a.numVars ≤ Variable.maxId)
    (hcovered : Reduct.Covered ⟨clauses, a⟩) :
    Agree (runAll [.unit, .reduce] ⟨clauses, a⟩)
      (runAll [.unit, .reduce] ⟨Clausal.simplify clauses, a⟩) := by
  have hcovered' := (within_simplify hnodup).covered hcovered
  rw [runAll, runAll, run, run]
  obtain ⟨a', hfix, hfix'⟩ | ⟨cause, cause', hfix, hfix'⟩ :=
    fixUnits_congr hmax hcovered hcovered' fun _ => unit_mem_simplify hnodup
  · simp only [hfix, hfix', runAll_singleton]
    exact agree_reduce (alike_reduceClauses hnodup fun _ => literalValue?_of_fixUnits hcovered hfix)
  · simp only [hfix, hfix']
    exact .contradiction cause cause'

/-- A round of reductions makes the same of a clause list and of its canonical
    form. -/
theorem coincide_simplify (hnodup : ∀ c ∈ clauses, c.Nodup) (hmax : a.numVars ≤ Variable.maxId)
    (hcovered : Reduct.Covered ⟨clauses, a⟩) :
    Coincide (run .standard ⟨clauses, a⟩) (run .standard ⟨Clausal.simplify clauses, a⟩) := by
  have hagree := agree_unit_reduce hnodup hmax hcovered
  have hcorrect := correct_runAll [.unit, .reduce] hcovered
  -- The first two passes make the clauses alike, and the others keep them so.
  have hstandard : standard =
      .chain ([.unit, .reduce] ++ ([.pure, .reduce, .tautology] ++ [.simplify])) := rfl
  rw [hstandard, run, run, runAll_append, runAll_append]
  generalize runAll [.unit, .reduce] ⟨clauses, a⟩ = result,
    runAll [.unit, .reduce] ⟨Clausal.simplify clauses, a⟩ = result' at hagree hcorrect
  cases hagree with
  | contradiction cause cause' => exact .contradiction cause cause'
  | ok a' h =>
    have hround := coincide_canonical [.pure, .reduce, .tautology] (by rwa [hcorrect.numVars])
      (hcorrect.covered hcovered) h
    rwa [run, run] at hround

end Pass

end Clausal
