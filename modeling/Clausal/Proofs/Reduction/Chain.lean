import Clausal.Proofs.Reduction.Passes
import Clausal.Proofs.Reduction.PureLiterals

namespace Clausal

namespace Reduct

/-- Every literal belongs to a variable of the assignment. -/
def Covered (r : Reduct) : Prop :=
  ∀ c ∈ r.clauses, ∀ l ∈ c, l.var.id ≤ r.assignment.numVars

/-- Some valuation agrees with the values given so far and satisfies the clauses
    that are left. -/
def Satisfiable (r : Reduct) : Prop :=
  ∃ v : Valuation, v.Extends r.assignment ∧ v.Satisfies r.clauses

/-- What a reduction keeps: the values given so far and satisfiability. What
    satisfies the reduced formula satisfies the original one, but not the other
    way round, because making pure literals true may lose valuations. -/
structure Preserves (r r' : Reduct) : Prop where
  numVars : r'.assignment.numVars = r.assignment.numVars
  literals : ∀ c' ∈ r'.clauses, ∀ l ∈ c', ∃ c ∈ r.clauses, l ∈ c
  keeps : r'.assignment.Extends r.assignment
  reflects : ∀ v : Valuation, v.Extends r'.assignment → v.Satisfies r'.clauses →
    v.Satisfies r.clauses
  satisfiable : r.Satisfiable → r'.Satisfiable

theorem Preserves.refl (r : Reduct) : r.Preserves r :=
  ⟨rfl, fun c hc _ hl => ⟨c, hc, hl⟩, Assignment.Extends.refl _, fun _ _ h => h, fun h => h⟩

/-- What two reductions in a row preserve is preserved. -/
theorem Preserves.trans {r r' r'' : Reduct} (h : r.Preserves r') (h' : r'.Preserves r'') :
    r.Preserves r'' := by
  refine ⟨h'.numVars.trans h.numVars, ?_, h'.keeps.trans h.keeps, ?_,
    fun hsat => h'.satisfiable (h.satisfiable hsat)⟩
  · intro c'' hc'' l hl
    obtain ⟨c', hc', hl'⟩ := h'.literals c'' hc'' l hl
    exact h.literals c' hc' l hl'
  · intro v hv hsat
    exact h.reflects v (hv.mono h'.keeps) (h'.reflects v hv hsat)

/-- What is reduced is still over the covered variables. -/
theorem Preserves.covered {r r' : Reduct} (h : r.Preserves r') (hr : r.Covered) :
    r'.Covered := by
  intro c' hc' l hl
  obtain ⟨c, hc, hl'⟩ := h.literals c' hc' l hl
  rw [h.numVars]
  exact hr c hc l hl'

/-- A reduction of the clauses alone that keeps the satisfying valuations. -/
theorem preserves_of_satisfies_iff {clauses clauses' : List Clause} {a : Assignment}
    (hliterals : ∀ c' ∈ clauses', ∀ l ∈ c', ∃ c ∈ clauses, l ∈ c)
    (hiff : ∀ v : Valuation, v.Extends a → (v.Satisfies clauses' ↔ v.Satisfies clauses)) :
    Preserves ⟨clauses, a⟩ ⟨clauses', a⟩ := by
  refine ⟨rfl, hliterals, Assignment.Extends.refl a, fun v hv => (hiff v hv).mp, ?_⟩
  rintro ⟨v, hv, hsat⟩
  exact ⟨v, hv, (hiff v hv).mpr hsat⟩

end Reduct

namespace Pass

/-- A correct result of reducing a formula: one that preserves it, or a
    contradiction if nothing satisfies it. Faults are not correct results. -/
def Correct (r : Reduct) : Reduced → Prop
  | .ok r' => r.Preserves r'
  | .error (.error _) => ¬ r.Satisfiable
  | .error (.fault _) => False

/-- A correct result for a reduct is correct for what has been reduced to it. -/
theorem correct_of_preserves {r r' : Reduct} {result : Reduced} (h : r.Preserves r')
    (h' : Correct r' result) : Correct r result := by
  match result with
  | .ok r'' => exact Reduct.Preserves.trans h h'
  | .error (.error _) => exact fun hsat => h' (h.satisfiable hsat)
  | .error (.fault _) => exact h'

private theorem correct_unit {clauses : List Clause} {a : Assignment}
    (h : Reduct.Covered ⟨clauses, a⟩) : Correct ⟨clauses, a⟩ (run .unit ⟨clauses, a⟩) := by
  have hspec := fixUnits_spec h
  rw [run]
  match hresult : fixUnits clauses a with
  | .error (.fault _) => simp [hresult] at hspec
  | .error (.error _) =>
    rw [hresult] at hspec
    rintro ⟨v, hv, hsat⟩
    exact hspec v hv hsat
  | .ok a' =>
    rw [hresult] at hspec
    obtain ⟨hnum, hextends, hentails⟩ := hspec
    refine ⟨hnum, fun c hc _ hl => ⟨c, hc, hl⟩, hextends, fun _ _ hsat => hsat, ?_⟩
    rintro ⟨v, hv, hsat⟩
    exact ⟨v, hentails v hv hsat, hsat⟩

private theorem correct_pure {clauses : List Clause} {a : Assignment}
    (h : Reduct.Covered ⟨clauses, a⟩) : Correct ⟨clauses, a⟩ (run .pure ⟨clauses, a⟩) := by
  obtain ⟨a', hassign, hnum, hextends, hsatisfiable⟩ := assignAll_pureLiterals h
  rw [run, hassign]
  exact ⟨hnum, fun c hc _ hl => ⟨c, hc, hl⟩, hextends, fun _ _ hsat => hsat, hsatisfiable⟩

private theorem correct_reduce {clauses : List Clause} {a : Assignment} :
    Correct ⟨clauses, a⟩ (run .reduce ⟨clauses, a⟩) := by
  rw [run]
  split
  · rename_i hempty
    simp only [List.any_eq_true, List.isEmpty_iff] at hempty
    obtain ⟨c, hc, rfl⟩ := hempty
    rintro ⟨v, hv, hsat⟩
    obtain ⟨l, hl, _⟩ := (Valuation.satisfies_reduceClauses hv).mpr hsat [] hc
    cases hl
  · refine Reduct.preserves_of_satisfies_iff ?_ fun v hv => Valuation.satisfies_reduceClauses hv
    intro c' hc' l hl
    obtain ⟨c, hc, hreduced⟩ := List.mem_filterMap.mp hc'
    unfold reduceClause at hreduced
    split at hreduced
    · cases hreduced
    · cases hreduced
      exact ⟨c, hc, (List.mem_filter.mp hl).1⟩

private theorem correct_simplify {clauses : List Clause} {a : Assignment} :
    Correct ⟨clauses, a⟩ (run .simplify ⟨clauses, a⟩) := by
  rw [run]
  refine Reduct.preserves_of_satisfies_iff ?_ fun v _ => Valuation.satisfies_simplify
  intro c' hc' l hl
  obtain ⟨c, hc, rfl⟩ := exists_of_mem_simplify hc'
  exact ⟨c, hc, mem_sortDistinct.mp hl⟩

mutual

/-- Every pass, and every chain of passes however nested, gives a correct
    result. -/
theorem correct_run : ∀ (pass : Pass) {r : Reduct}, r.Covered → Correct r (pass.run r)
  | .unit, ⟨_, _⟩, h => correct_unit h
  | .pure, ⟨_, _⟩, h => correct_pure h
  | .reduce, ⟨_, _⟩, _ => correct_reduce
  | .tautology, ⟨clauses, a⟩, _ => by
    rw [run]
    refine Reduct.preserves_of_satisfies_iff ?_ fun v _ => Valuation.satisfies_filter_tautology
    intro c hc l hl
    exact ⟨c, (List.mem_filter.mp hc).1, hl⟩
  | .simplify, ⟨_, _⟩, _ => correct_simplify
  | .chain passes, r, h => by
    rw [run]
    exact correct_runAll passes h

/-- Running correct passes one after the other is correct. -/
theorem correct_runAll : ∀ (passes : List Pass) {r : Reduct},
    r.Covered → Correct r (runAll passes r)
  | [], r, _ => Reduct.Preserves.refl r
  | pass :: rest, r, h => by
    have hfirst := correct_run pass h
    rw [runAll]
    match hresult : pass.run r with
    | .ok r' =>
      rw [hresult] at hfirst
      exact correct_of_preserves hfirst (correct_runAll rest (hfirst.covered h))
    | .error failure =>
      rw [hresult] at hfirst
      exact hfirst

end

/-- Repeating a pass until nothing changes gives a correct result. -/
theorem correct_runToFixpoint (pass : Pass) {r : Reduct} (h : r.Covered) :
    Correct r (pass.runToFixpoint r) := by
  fun_induction runToFixpoint pass r with
  | case1 r failure hrun =>
    have hround := correct_run pass h
    rwa [hrun] at hround
  | case2 r r' hrun _ =>
    have hround := correct_run pass h
    rwa [hrun] at hround
  | case3 r r' hrun _ ih =>
    have hround := correct_run pass h
    rw [hrun] at hround
    exact correct_of_preserves hround (ih (hround.covered h))

/-- Every pass and every chain of passes, applied once or until nothing changes,
    keeps the values given before it and satisfiability, and what satisfies the
    result satisfies what it was applied to. It stops early only with a
    contradiction, and only if nothing satisfies the clauses. -/
theorem reduction_preserves_satisfiability (pass : Pass) (clauses : List Clause) (a : Assignment)
    (hrange : ∀ c ∈ clauses, ∀ l ∈ c, l.var.id ≤ a.numVars) :
    ∀ result ∈ [pass.run ⟨clauses, a⟩, pass.runToFixpoint ⟨clauses, a⟩],
      match result with
      | .ok r' =>
        r'.assignment.numVars = a.numVars ∧ r'.assignment.Extends a ∧
        (∀ v : Valuation, v.Extends r'.assignment → v.Satisfies r'.clauses →
          v.Satisfies clauses) ∧
        ((∃ v : Valuation, v.Extends a ∧ v.Satisfies clauses) →
          ∃ v : Valuation, v.Extends r'.assignment ∧ v.Satisfies r'.clauses)
      | .error (.error _) => ∀ v : Valuation, v.Extends a → ¬ v.Satisfies clauses
      | .error (.fault _) => False := by
  have hcorrect : ∀ result ∈ [pass.run ⟨clauses, a⟩, pass.runToFixpoint ⟨clauses, a⟩],
      Correct ⟨clauses, a⟩ result := by
    simp only [List.forall_mem_cons]
    exact ⟨correct_run pass hrange, correct_runToFixpoint pass hrange, by simp⟩
  intro result hmem
  have hresult := hcorrect result hmem
  match result with
  | .ok r' => exact ⟨hresult.numVars, hresult.keeps, hresult.reflects, hresult.satisfiable⟩
  | .error (.error _) => exact fun v hv hsat => hresult ⟨v, hv, hsat⟩
  | .error (.fault _) => exact hresult

/-- A chain with a chain in it, run once and until nothing changes, on clauses with a
    value given before. -/
theorem reduction_preserves_satisfiability_of_nested_chain :
    ∃ (clauses : List Clause) (a : Assignment) (pass : Pass),
      [[1, -2], [2, 3], [-1, 4]].mapM Clause.ofInts = .ok clauses ∧
      a = ⟨#[none, some true, none, none]⟩ ∧
      pass = .chain [.pure, .chain [.reduce, .unit], .tautology, .simplify] ∧
      (∀ c ∈ clauses, ∀ l ∈ c, l.var.id ≤ a.numVars) ∧
      ∀ result ∈ [pass.run ⟨clauses, a⟩, pass.runToFixpoint ⟨clauses, a⟩],
        ∃ r', result = .ok r' ∧ r'.assignment.Extends a ∧
          ∃ v : Valuation, v.Extends r'.assignment ∧ v.Satisfies r'.clauses ∧
            v.Satisfies clauses := by
  obtain ⟨clauses, hrows, hrange, hsat⟩ :
      ∃ clauses, [[1, -2], [2, 3], [-1, 4]].mapM Clause.ofInts = .ok clauses ∧
        (∀ c ∈ clauses, ∀ l ∈ c, l.var.id ≤ 4) ∧ Valuation.Satisfies (fun _ => true) clauses :=
    ⟨_, rfl, by decide, by decide⟩
  have hextends : Valuation.Extends (fun _ => true) ⟨#[none, some true, none, none]⟩ := by
    intro x b hx
    unfold Assignment.value? at hx
    split at hx
    · have hmem := hx ▸ Array.getElem_mem (by assumption)
      cases b <;> simp_all
    · cases hx
  refine ⟨clauses, _, _, hrows, rfl, rfl, hrange, fun result hresult => ?_⟩
  have hpreserved := reduction_preserves_satisfiability _ clauses
    ⟨#[none, some true, none, none]⟩ hrange result hresult
  match result with
  | .ok r' =>
    obtain ⟨_, hkeeps, hreflects, hsatisfiable⟩ := hpreserved
    obtain ⟨v, hv, hsat'⟩ := hsatisfiable ⟨_, hextends, hsat⟩
    exact ⟨r', rfl, hkeeps, v, hv, hsat', hreflects v hv hsat'⟩
  | .error (.error _) => exact absurd hsat (hpreserved _ hextends)
  | .error (.fault _) => exact hpreserved.elim

end Pass

end Clausal
