import Clausal.Proofs.Reduction.Rearrangement

namespace Clausal

namespace Pass

/-- Only unit clauses give variables values. -/
theorem fixUnits_filter (clauses : List Clause) (a : Assignment) :
    fixUnits (clauses.filter Clause.isUnit) a = fixUnits clauses a := by
  induction clauses generalizing a with
  | nil => rfl
  | cons c rest ih =>
    match c with
    | [] => simpa [Clause.isUnit, fixUnits, fixUnit] using ih a
    | [l] =>
      rw [List.filter_cons_of_pos rfl]
      simp only [fixUnits, ih]
    | _ :: _ :: _ => simpa [Clause.isUnit, fixUnits, fixUnit] using ih a

private theorem literalValue?_of_fixUnit {a a' : Assignment} {l : Literal}
    (h : fixUnit a [l] = .ok a') (hrange : l.var.id ≤ a.numVars) :
    a'.literalValue? l = some true := by
  simp only [fixUnit] at h
  split at h
  · cases h
    assumption
  · cases h
  · obtain ⟨a'', hassign, _, hvalue⟩ := Assignment.assign_spec hrange
    rw [hassign] at h
    cases h
    rw [Assignment.literalValue?_eq_some, hvalue, if_pos rfl]
    simp

/-- Fixing units makes the literal of every unit clause true. -/
theorem literalValue?_of_fixUnits {clauses : List Clause} {a a' : Assignment}
    (hrange : ∀ c ∈ clauses, ∀ l ∈ c, l.var.id ≤ a.numVars)
    (h : fixUnits clauses a = .ok a') {l : Literal} (hl : [l] ∈ clauses) :
    a'.literalValue? l = some true := by
  induction clauses generalizing a with
  | nil => cases hl
  | cons c rest ih =>
    obtain ⟨hfirst, hrest⟩ := List.forall_mem_cons.mp hrange
    have hunit := fixUnit_spec hfirst
    rw [fixUnits] at h
    split at h
    · rename_i first hfix
      rw [hfix] at hunit
      obtain ⟨hnum, _, _⟩ := hunit
      have hlast := fixUnits_spec (a := first) (by rwa [hnum])
      rw [h] at hlast
      rcases List.mem_cons.mp hl with rfl | hl
      · have hvalue := literalValue?_of_fixUnit hfix (hfirst l List.mem_cons_self)
        rw [Assignment.literalValue?_eq_some] at hvalue ⊢
        exact hlast.2.1 _ _ hvalue
      · exact ih (by rwa [hnum]) h hl
    · cases h

/-- Making the literals of unit clauses true narrows the valuations to those that
    do so as well, and it fails if there are none. So the outcome depends only on
    which unit clauses there are. -/
theorem fixUnits_exact {clauses : List Clause} {a : Assignment}
    (hrange : ∀ c ∈ clauses, ∀ l ∈ c, l.var.id ≤ a.numVars) :
    match fixUnits clauses a with
    | .ok a' => a'.numVars = a.numVars ∧
        ∀ v : Valuation, v.Extends a' ↔ v.Extends a ∧ ∀ l, [l] ∈ clauses → v.Makes l
    | .error (.error _) => ∀ v : Valuation, v.Extends a → ¬ ∀ l, [l] ∈ clauses → v.Makes l
    | .error (.fault _) => False := by
  have hunits (v : Valuation) : v.Satisfies (clauses.filter Clause.isUnit) ↔
      ∀ l, [l] ∈ clauses → v.Makes l := by
    constructor
    · intro hsat l hl
      obtain ⟨m, hm, hmakes⟩ := hsat [l] (List.mem_filter.mpr ⟨hl, rfl⟩)
      rwa [List.mem_singleton.mp hm] at hmakes
    · intro hmakes c hc
      obtain ⟨hmem, hunit⟩ := List.mem_filter.mp hc
      match c with
      | [l] => exact ⟨l, List.mem_singleton.mpr rfl, hmakes l hmem⟩
  have hunitRange : ∀ c ∈ clauses.filter Clause.isUnit, ∀ l ∈ c, l.var.id ≤ a.numVars :=
    fun c hc => hrange c (List.mem_filter.mp hc).1
  have hspec := fixUnits_spec hunitRange
  rw [fixUnits_filter] at hspec
  match hresult : fixUnits clauses a with
  | .error (.fault _) => simp [hresult] at hspec
  | .error (.error _) =>
    rw [hresult] at hspec
    exact fun v hv hmakes => hspec v hv ((hunits v).mpr hmakes)
  | .ok a' =>
    rw [hresult] at hspec
    obtain ⟨hnum, hextends, hentails⟩ := hspec
    refine ⟨hnum, fun v => ⟨fun hv => ⟨hv.mono hextends, fun l hl => ?_⟩, ?_⟩⟩
    · exact hv.makes (literalValue?_of_fixUnits hrange hresult hl)
    · rintro ⟨hv, hmakes⟩
      exact hentails v hv ((hunits v).mpr hmakes)

/-- Two results agree if they are the same up to the form of their clauses and
    the cause of a contradiction. Faults do not agree with anything. -/
inductive Agree : Reduced → Reduced → Prop
  | ok {clauses clauses' : List Clause} (a : Assignment) (h : Alike clauses clauses') :
      Agree (.ok ⟨clauses, a⟩) (.ok ⟨clauses', a⟩)
  | contradiction (cause cause' : Contradiction) :
      Agree (.error (.error cause)) (.error (.error cause'))

section Agreement

variable {clauses clauses' : List Clause} {a : Assignment}

/-- Clause lists with the same unit clauses lead to the same values, or both to a
    contradiction. -/
theorem fixUnits_congr (hmax : a.numVars ≤ Variable.maxId)
    (hcovered : Reduct.Covered ⟨clauses, a⟩) (hcovered' : Reduct.Covered ⟨clauses', a⟩)
    (hunits : ∀ l, [l] ∈ clauses' ↔ [l] ∈ clauses) :
    (∃ a', fixUnits clauses a = .ok a' ∧ fixUnits clauses' a = .ok a') ∨
    ∃ cause cause', fixUnits clauses a = .error (.error cause) ∧
      fixUnits clauses' a = .error (.error cause') := by
  have hspec := fixUnits_exact hcovered
  have hspec' := fixUnits_exact hcovered'
  simp only [hunits] at hspec'
  match hresult : fixUnits clauses a, hresult' : fixUnits clauses' a with
  | .error (.fault _), _ => simp [hresult] at hspec
  | _, .error (.fault _) => simp [hresult'] at hspec'
  | .error (.error cause), .error (.error cause') => exact .inr ⟨cause, cause', rfl, rfl⟩
  | .ok first, .error (.error _) =>
    rw [hresult] at hspec
    rw [hresult'] at hspec'
    obtain ⟨hv, hmakes⟩ := (hspec.2 _).mp first.extends_valuation
    exact absurd hmakes (hspec' _ hv)
  | .error (.error _), .ok first =>
    rw [hresult] at hspec
    rw [hresult'] at hspec'
    obtain ⟨hv, hmakes⟩ := (hspec'.2 _).mp first.extends_valuation
    exact absurd hmakes (hspec _ hv)
  | .ok first, .ok second =>
    rw [hresult] at hspec
    rw [hresult'] at hspec'
    obtain rfl : second = first := Assignment.eq_of_extends_iff (hspec'.1.trans hspec.1.symm)
      (by rwa [hspec.1]) fun v => (hspec'.2 v).trans (hspec.2 v).symm
    exact .inl ⟨second, rfl, rfl⟩

private theorem agree_unit (hmax : a.numVars ≤ Variable.maxId)
    (hcovered : Reduct.Covered ⟨clauses, a⟩) (h : Alike clauses clauses') :
    Agree (run .unit ⟨clauses, a⟩) (run .unit ⟨clauses', a⟩) := by
  have hunits (l : Literal) : [l] ∈ clauses' ↔ [l] ∈ clauses :=
    ⟨h.backward.unit_mem, h.forward.unit_mem⟩
  rw [run, run]
  obtain ⟨a', hfix, hfix'⟩ | ⟨cause, cause', hfix, hfix'⟩ :=
    fixUnits_congr hmax hcovered (h.backward.covered hcovered) hunits
  · rw [hfix, hfix']
    exact .ok a' h
  · rw [hfix, hfix']
    exact .contradiction cause cause'

/-- The order of the literals makes no difference to whether a clause is removed. -/
theorem reduceClause_perm {c d c' : Clause} (hperm : c.Perm d)
    (hreduce : reduceClause a c = some c') : ∃ d', reduceClause a d = some d' ∧ c'.Perm d' := by
  unfold reduceClause at hreduce ⊢
  have hsatisfies : a.satisfies c = a.satisfies d := hperm.any_eq
  rw [hsatisfies] at hreduce
  split at hreduce
  · cases hreduce
  · rename_i hunsatisfied
    cases hreduce
    exact ⟨_, if_neg hunsatisfied, hperm.filter _⟩

/-- Reducing agrees on two lists of clauses if they reduce to lists that are alike. -/
theorem agree_reduce (h : Alike (reduceClauses clauses a) (reduceClauses clauses' a)) :
    Agree (run .reduce ⟨clauses, a⟩) (run .reduce ⟨clauses', a⟩) := by
  have hempty : (reduceClauses clauses a).any List.isEmpty =
      (reduceClauses clauses' a).any List.isEmpty := by
    rw [Bool.eq_iff_iff]
    simp only [List.any_eq_true, List.isEmpty_iff, exists_eq_right]
    exact ⟨h.forward.nil_mem, h.backward.nil_mem⟩
  simp only [run, hempty]
  split
  · exact .contradiction _ _
  · exact .ok a h

private theorem agree_tautology (h : Alike clauses clauses') :
    Agree (run .tautology ⟨clauses, a⟩) (run .tautology ⟨clauses', a⟩) := by
  have htautology {c d : Clause} (hperm : c.Perm d) : c.isTautology = d.isTautology := by
    unfold Clause.isTautology
    rw [hperm.any_eq]
    simp only [hperm.contains_eq]
  rw [run, run]
  apply Agree.ok
  simp only [← List.filterMap_eq_filter]
  apply h.filterMap
  intro c d c' hperm hkept
  simp only [Option.guard_eq_some_iff, ← htautology hperm] at hkept ⊢
  obtain ⟨rfl, hkept⟩ := hkept
  exact ⟨d, ⟨rfl, hkept⟩, hperm⟩

mutual

/-- Every pass, and every chain of passes however nested, gives agreeing results
    for alike clause lists. -/
theorem agree_run : ∀ (pass : Pass) {clauses clauses' : List Clause} {a : Assignment},
    a.numVars ≤ Variable.maxId → Reduct.Covered ⟨clauses, a⟩ → Alike clauses clauses' →
    Agree (pass.run ⟨clauses, a⟩) (pass.run ⟨clauses', a⟩)
  | .unit, _, _, _, hmax, hcovered, h => agree_unit hmax hcovered h
  | .pure, clauses, clauses', a, _, hcovered, h => by
    obtain ⟨a', hassign, _⟩ := assignAll_pureLiterals hcovered
    rw [run, run, ← h.pureLiterals_eq, hassign]
    exact .ok a' h
  | .reduce, _, _, _, _, _, h => agree_reduce (h.filterMap reduceClause_perm)
  | .tautology, _, _, _, _, _, h => agree_tautology h
  | .simplify, clauses, clauses', a, _, _, h => by
    rw [run, run, h.simplify_eq]
    exact .ok a (.refl _)
  | .chain passes, clauses, clauses', a, hmax, hcovered, h => by
    rw [run, run]
    exact agree_runAll passes hmax hcovered h

/-- Running passes one after the other agrees on lists of clauses that are alike. -/
theorem agree_runAll : ∀ (passes : List Pass) {clauses clauses' : List Clause} {a : Assignment},
    a.numVars ≤ Variable.maxId → Reduct.Covered ⟨clauses, a⟩ → Alike clauses clauses' →
    Agree (runAll passes ⟨clauses, a⟩) (runAll passes ⟨clauses', a⟩)
  | [], _, _, a, _, _, h => .ok a h
  | pass :: rest, clauses, clauses', a, hmax, hcovered, h => by
    have hfirst := agree_run pass hmax hcovered h
    have hcorrect := correct_run pass hcovered
    rw [runAll, runAll]
    generalize pass.run ⟨clauses, a⟩ = result, pass.run ⟨clauses', a⟩ = result' at hfirst hcorrect
    cases hfirst with
    | contradiction => exact .contradiction _ _
    | ok a' h' =>
      exact agree_runAll rest (by rwa [hcorrect.numVars]) (hcorrect.covered hcovered) h'

end

end Agreement

end Pass

end Clausal
