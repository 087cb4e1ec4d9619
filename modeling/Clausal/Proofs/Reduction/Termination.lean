import Clausal.Proofs.Reduction.Chain

namespace Clausal

namespace Pass

/-- The loop that repeats a pass, started with `r`, is over after some number of
    rounds and has the given result. -/
inductive Finishes (pass : Pass) : Reduct → Nat → Reduced → Prop
  | failed {r : Reduct} {failure : Failure Contradiction} (hrun : pass.run r = .error failure) :
      Finishes pass r 1 (.error failure)
  | unchanged {r r' : Reduct} (hrun : pass.run r = .ok r') (hclauses : r'.clauses = r.clauses)
      (hfixed : r'.assignment.fixedCount = r.assignment.fixedCount) :
      Finishes pass r 1 (.ok r')
  | changed {r r' : Reduct} {rounds : Nat} {result : Reduced} (hrun : pass.run r = .ok r')
      (hchanged : r'.clauses = r.clauses → r'.assignment.fixedCount ≠ r.assignment.fixedCount)
      (hrest : Finishes pass r' rounds result) : Finishes pass r (rounds + 1) result

/-- The last part of the distance is a single step. -/
theorem distance_le_one (r : Reduct) : (distance r).2.2 ≤ 1 := by
  unfold distance
  split <;> simp

/-- A bound on the rounds that can still change something. A variable that gets a
    value and a clause or literal that is removed pay for two of them, because the
    clauses may then have to be brought into canonical form again. -/
def potential (r : Reduct) : Nat :=
  2 * ((distance r).1 + (distance r).2.1) + (distance r).2.2

/-- A round that changes something lowers the potential. -/
theorem potential_lt {r r' : Reduct} (h : Descends r r') (hchanged : isStable r r' = false) :
    potential r' < potential r := by
  have hcloser := distance_decreases h hchanged
  simp only [Prod.lex_def] at hcloser
  have hvariables : (distance r').1 ≤ (distance r).1 := by
    have hnum := h.numVars
    have hfixed := h.fixed
    simp only [distance]
    omega
  have hweight : (distance r').2.1 ≤ (distance r).2.1 := h.weight_le
  have hcanonical := distance_le_one r'
  unfold potential
  omega

/-- Repeating a pass is over after a number of rounds that the size of the formula
    bounds. -/
theorem finishes_runToFixpoint (pass : Pass) (r : Reduct) :
    ∃ rounds, Finishes pass r rounds (pass.runToFixpoint r) ∧ rounds ≤ potential r + 1 := by
  fun_induction runToFixpoint pass r with
  | case1 r failure hrun => exact ⟨1, .failed hrun, by omega⟩
  | case2 r r' hrun hstable =>
    obtain ⟨hclauses, hfixed⟩ := isStable_iff.mp hstable
    exact ⟨1, .unchanged hrun hclauses hfixed, by omega⟩
  | case3 r r' hrun hunstable ih =>
    obtain ⟨rounds, hrest, hrounds⟩ := ih
    have hless := potential_lt (descends_run pass hrun) (Bool.eq_false_iff.mpr hunstable)
    refine ⟨rounds + 1, .changed hrun (fun hclauses hfixed => ?_) hrest, by omega⟩
    exact hunstable (isStable_iff.mpr ⟨hclauses, hfixed⟩)

/-- Repeating any chain of passes comes to an end, with a result or with a
    contradiction. The number of rounds is at most linear in the number of
    variables without a value, of clauses and of literals. -/
theorem runToFixpoint_ends (pass : Pass) (clauses : List Clause) (a : Assignment)
    (hrange : ∀ c ∈ clauses, ∀ l ∈ c, l.var.id ≤ a.numVars) :
    ∃ rounds result, Finishes pass ⟨clauses, a⟩ rounds result ∧
      rounds ≤ 2 * (a.numVars - a.fixedCount + NormalForm.weight clauses) + 2 ∧
      pass.runToFixpoint ⟨clauses, a⟩ = result ∧
      ((∃ r, result = .ok r) ∨ ∃ contradiction, result = .error (.error contradiction)) := by
  obtain ⟨rounds, hfinishes, hrounds⟩ := finishes_runToFixpoint pass ⟨clauses, a⟩
  have hcorrect := correct_runToFixpoint pass (r := ⟨clauses, a⟩) hrange
  refine ⟨rounds, _, hfinishes, ?_, rfl, ?_⟩
  · have hcanonical := distance_le_one ⟨clauses, a⟩
    simp only [potential, distance] at hrounds hcanonical ⊢
    omega
  · match hresult : pass.runToFixpoint ⟨clauses, a⟩ with
    | .ok r => exact .inl ⟨r, rfl⟩
    | .error (.error contradiction) => exact .inr ⟨contradiction, rfl⟩
    | .error (.fault _) =>
      rw [hresult] at hcorrect
      exact hcorrect.elim

/-- A chain with a chain in it, on clauses that give one value after the other. -/
theorem runToFixpoint_ends_of_nested_chain :
    ∃ (clauses : List Clause) (pass : Pass),
      [[1], [-1, 2], [-2, 3], [3, 4, -4], [3, 2]].mapM Clause.ofInts = .ok clauses ∧
      pass = .chain [.simplify, .chain [.reduce, .unit], .pure] ∧
      (∀ c ∈ clauses, ∀ l ∈ c, l.var.id ≤ (Assignment.blank 4).numVars) ∧
      ∃ rounds result, Finishes pass ⟨clauses, .blank 4⟩ rounds result ∧ rounds ≤ 40 ∧
        pass.runToFixpoint ⟨clauses, .blank 4⟩ = result ∧
        ((∃ r, result = .ok r) ∨ ∃ contradiction, result = .error (.error contradiction)) := by
  obtain ⟨clauses, hrows, hrange, hbound⟩ :
      ∃ clauses, [[1], [-1, 2], [-2, 3], [3, 4, -4], [3, 2]].mapM Clause.ofInts = .ok clauses ∧
        (∀ c ∈ clauses, ∀ l ∈ c, l.var.id ≤ (Assignment.blank 4).numVars) ∧
        2 * ((Assignment.blank 4).numVars - (Assignment.blank 4).fixedCount +
          NormalForm.weight clauses) + 2 ≤ 40 :=
    ⟨_, rfl, by decide, by decide⟩
  obtain ⟨rounds, result, hfinishes, hrounds, hends⟩ :=
    runToFixpoint_ends (.chain [.simplify, .chain [.reduce, .unit], .pure]) clauses (.blank 4) hrange
  exact ⟨clauses, _, hrows, rfl, hrange, rounds, result, hfinishes, Nat.le_trans hrounds hbound, hends⟩

end Pass

end Clausal
