import Clausal.Proofs.Reduction.Fixpoint

namespace Clausal

/-- A formula at which none of the standard reductions has anything left to do:
    its clauses are in canonical form, none is a unit clause or a tautology, no
    literal has a value, and none is pure. -/
structure Reduct.Irreducible (r : Reduct) : Prop where
  two_le : ∀ c ∈ r.clauses, 2 ≤ c.length
  literals_ascending : ∀ c ∈ r.clauses, c.Pairwise fun l m => l.value < m.value
  consistent : ∀ c ∈ r.clauses, ∀ l ∈ c, l.negate ∉ c
  clauses_ascending : r.clauses.Pairwise fun c d => c.map Literal.value < d.map Literal.value
  free : ∀ c ∈ r.clauses, ∀ l ∈ c, r.assignment.value? l.var = none
  mixed : ∀ c ∈ r.clauses, ∀ l ∈ c, ∃ d ∈ r.clauses, l.negate ∈ d

namespace Pass

variable {pass : Pass} {passes : List Pass} {r r' : Reduct}

/-- A chain goes through if its first pass does and then the others. -/
theorem runAll_cons_eq_ok_iff : runAll (pass :: passes) r = .ok r' ↔
    ∃ s, pass.run r = .ok s ∧ runAll passes s = .ok r' := by
  rw [runAll]
  cases pass.run r <;> simp

/-- A pass that goes through preserves what has to be preserved. -/
theorem preserves_of_run (hcovered : r.Covered) (h : pass.run r = .ok r') : r.Preserves r' := by
  have hcorrect := correct_run pass hcovered
  rwa [h] at hcorrect

/-- A chain that goes through preserves what has to be preserved. -/
theorem preserves_of_runAll (hcovered : r.Covered) (h : runAll passes r = .ok r') :
    r.Preserves r' := by
  have hcorrect := correct_runAll passes hcovered
  rwa [h] at hcorrect

/-- A fixpoint comes from a round that has left the clauses as they were. -/
theorem exists_last_round (hcovered : r.Covered) (h : pass.runToFixpoint r = .ok r') :
    ∃ s, s.Covered ∧ pass.run s = .ok r' ∧ r'.clauses = s.clauses := by
  fun_induction runToFixpoint pass r with
  | case1 => cases h
  | case2 r s hrun hstable =>
    cases h
    exact ⟨r, hcovered, hrun, (isStable_iff.mp hstable).1⟩
  | case3 r s hrun _ ih => exact ih ((preserves_of_run hcovered hrun).covered hcovered) h

/-- The literals of unit clauses are true after they have been looked for. -/
theorem literalValue?_of_run_unit (hcovered : r.Covered) (h : run .unit r = .ok r')
    {l : Literal} (hl : [l] ∈ r.clauses) : r'.assignment.literalValue? l = some true := by
  rw [run] at h
  split at h
  · rename_i hunits
    cases h
    exact literalValue?_of_fixUnits hcovered hunits hl
  · cases h

/-- A literal that occurs without its complement has a value after pure literals
    have been looked for. -/
theorem value?_of_run_pure (hcovered : r.Covered) (h : run .pure r = .ok r') {l : Literal}
    (hoccurs : ∃ c ∈ r.clauses, l ∈ c) (hpure : ∀ c ∈ r.clauses, l.negate ∉ c) :
    ∃ b, r'.assignment.value? l.var = some b := by
  cases hvalue : r.assignment.value? l.var with
  | some b => exact ⟨b, (preserves_of_run hcovered h).keeps _ _ hvalue⟩
  | none =>
    obtain ⟨a, hassign, _, hgiven, _⟩ := assignAll_pureLiterals_spec hcovered
    rw [run, hassign] at h
    cases h
    exact ⟨l.polarity, hgiven l (mem_pureLiterals.mpr ⟨hoccurs, hvalue, hpure⟩)⟩

/-- No literal of a reduced clause has a value. -/
theorem value?_of_mem_reduceClauses {clauses : List Clause} {a : Assignment} {c : Clause}
    (hc : c ∈ reduceClauses clauses a) {l : Literal} (hl : l ∈ c) : a.value? l.var = none := by
  obtain ⟨d, _, hreduce⟩ := List.mem_filterMap.mp hc
  unfold reduceClause at hreduce
  split at hreduce
  · cases hreduce
  · rename_i hunsatisfied
    cases hreduce
    obtain ⟨hl, hlive⟩ := List.mem_filter.mp hl
    rw [← Assignment.literalValue?_eq_none]
    match hvalue : a.literalValue? l with
    | none => rfl
    | some true => exact absurd (List.any_eq_true.mpr ⟨l, hl, by simp [hvalue]⟩) hunsatisfied
    | some false => simp [Assignment.falsifies, hvalue] at hlive

/-- Removing what the values decide leaves no empty clause and no literal with a
    value. -/
theorem free_of_run_reduce (h : run .reduce r = .ok r') {c : Clause} (hc : c ∈ r'.clauses) :
    c ≠ [] ∧ ∀ l ∈ c, r'.assignment.value? l.var = none := by
  rw [run] at h
  split at h
  · cases h
  · rename_i hempty
    cases h
    refine ⟨?_, fun l hl => value?_of_mem_reduceClauses hc hl⟩
    rintro rfl
    exact hempty (List.any_eq_true.mpr ⟨[], hc, rfl⟩)

/-- The last three passes of a round leave clauses in canonical form that are
    neither empty nor tautologies, and whose literals have no value. -/
theorem canonical_of_runAll (h : runAll [.reduce, .tautology, .simplify] r = .ok r') :
    (∃ clauses, r'.clauses = Clausal.simplify clauses) ∧
    ∀ c ∈ r'.clauses, c ≠ [] ∧
      ∀ l ∈ c, l.negate ∉ c ∧ r'.assignment.value? l.var = none := by
  obtain ⟨s, hreduce, h⟩ := runAll_cons_eq_ok_iff.mp h
  simp only [runAll, run, Except.ok.injEq] at h
  subst h
  refine ⟨⟨_, rfl⟩, fun c hc => ?_⟩
  obtain ⟨d, hd, rfl⟩ := exists_of_mem_simplify hc
  obtain ⟨hd, htautology⟩ := List.mem_filter.mp hd
  obtain ⟨hnonempty, hfree⟩ := free_of_run_reduce hreduce hd
  have hmem (l : Literal) : l ∈ d.canonical ↔ l ∈ d := mem_sortDistinct
  simp only [Clause.isTautology, Bool.not_eq_true', List.any_eq_false,
    List.contains_iff_mem] at htautology
  refine ⟨?_, fun l hl => ⟨?_, hfree l ((hmem l).mp hl)⟩⟩
  · obtain ⟨l, hl⟩ := List.exists_mem_of_ne_nil d hnonempty
    exact List.ne_nil_of_mem ((hmem l).mpr hl)
  · rw [hmem]
    exact htautology l ((hmem l).mp hl)

/-- A unit clause has its literal made true in a standard round. -/
theorem value?_of_unit (hcovered : r.Covered) (hrun : run .standard r = .ok r') {l : Literal}
    (hl : [l] ∈ r.clauses) : ∃ b, r'.assignment.value? l.var = some b := by
  rw [standard, run] at hrun
  obtain ⟨units, hunit, hrest⟩ := runAll_cons_eq_ok_iff.mp hrun
  have hcovered' := (preserves_of_run hcovered hunit).covered hcovered
  have htrue := literalValue?_of_run_unit hcovered hunit hl
  rw [Assignment.literalValue?_eq_some] at htrue
  exact ⟨_, (preserves_of_runAll hcovered' hrest).keeps _ _ htrue⟩

/-- A literal without its complement has a value after a standard round, since it is
    pure in it unless it has been removed before. -/
theorem value?_of_lone (hcovered : r.Covered) (hrun : run .standard r = .ok r') {l : Literal}
    (hoccurs : ∃ c ∈ r'.clauses, l ∈ c) (hlone : ∀ c ∈ r.clauses, l.negate ∉ c) :
    ∃ b, r'.assignment.value? l.var = some b := by
  rw [standard, run] at hrun
  obtain ⟨units, hunit, hrest⟩ := runAll_cons_eq_ok_iff.mp hrun
  obtain ⟨reduced, hreduce, hrest⟩ := runAll_cons_eq_ok_iff.mp hrest
  obtain ⟨pures, hpure, hlast⟩ := runAll_cons_eq_ok_iff.mp hrest
  have hfirst := preserves_of_run hcovered hunit
  have hbefore := hfirst.trans (preserves_of_run (hfirst.covered hcovered) hreduce)
  have hafter := preserves_of_runAll (hbefore.covered hcovered) hrest
  have hcovered' := (preserves_of_run (hbefore.covered hcovered) hpure).covered
    (hbefore.covered hcovered)
  obtain ⟨c, hc, hl⟩ := hoccurs
  have hlone' : ∀ d ∈ reduced.clauses, l.negate ∉ d := by
    intro d hd hnegate
    obtain ⟨d', hd', hnegate'⟩ := hbefore.literals d hd l.negate hnegate
    exact hlone d' hd' hnegate'
  obtain ⟨b, hb⟩ := value?_of_run_pure (hbefore.covered hcovered) hpure
    (hafter.literals c hc l hl) hlone'
  exact ⟨b, (preserves_of_runAll hcovered' hlast).keeps _ _ hb⟩

/-- What one round of the standard reductions leaves is canonical, without empty clauses
    and tautologies, and without literals that have a value. -/
theorem canonical_of_run (hrun : run .standard r = .ok r') :
    (∃ clauses, r'.clauses = Clausal.simplify clauses) ∧
    ∀ c ∈ r'.clauses, c ≠ [] ∧
      ∀ l ∈ c, l.negate ∉ c ∧ r'.assignment.value? l.var = none := by
  rw [standard, run] at hrun
  obtain ⟨_, _, hrest⟩ := runAll_cons_eq_ok_iff.mp hrun
  obtain ⟨_, _, hrest⟩ := runAll_cons_eq_ok_iff.mp hrest
  obtain ⟨_, _, hlast⟩ := runAll_cons_eq_ok_iff.mp hrest
  exact canonical_of_runAll hlast

/-- A standard round that leaves the clauses as they were has found nothing to do
    for any of its passes. -/
theorem irreducible_of_run (hcovered : r.Covered) (hrun : run .standard r = .ok r')
    (hclauses : r'.clauses = r.clauses) : r'.Irreducible := by
  obtain ⟨⟨clauses, hcanonical⟩, hleft⟩ := canonical_of_run hrun
  have hfree (c : Clause) (hc : c ∈ r'.clauses) (l : Literal) (hl : l ∈ c) :
      r'.assignment.value? l.var = none := ((hleft c hc).2 l hl).2
  constructor
  case two_le =>
    intro c hc
    match c with
    | [] => exact absurd rfl (hleft [] hc).1
    | _ :: _ :: _ => simp
    | [l] =>
      obtain ⟨b, hb⟩ := value?_of_unit hcovered hrun (hclauses ▸ hc)
      rw [hfree [l] hc l List.mem_cons_self] at hb
      cases hb
  case literals_ascending =>
    intro c hc
    rw [hcanonical] at hc
    rw [← canonical_of_mem_simplify hc]
    exact Clause.ascending_iff.mp (ascending_sortDistinct c)
  case consistent => exact fun c hc l hl => ((hleft c hc).2 l hl).1
  case clauses_ascending =>
    rw [hcanonical]
    exact ascending_clauses_iff.mp (ascending_simplify clauses)
  case free => exact hfree
  case mixed =>
    intro c hc l hl
    apply Classical.byContradiction
    intro hlone
    obtain ⟨b, hb⟩ := value?_of_lone hcovered hrun ⟨c, hc, hl⟩ fun d hd hnegate =>
      hlone ⟨d, hclauses ▸ hd, hnegate⟩
    rw [hfree c hc l hl] at hb
    cases hb

/-- What the standard reductions leave when nothing changes any more is irreducible. -/
theorem irreducible_of_runToFixpoint (hcovered : r.Covered)
    (h : runToFixpoint .standard r = .ok r') : r'.Irreducible := by
  obtain ⟨s, hs, hrun, hclauses⟩ := exists_last_round hcovered h
  exact irreducible_of_run hs hrun hclauses

/-- Without unit and empty clauses no value is fixed. -/
theorem fixUnits_eq_of_two_le {clauses : List Clause} (h : ∀ c ∈ clauses, 2 ≤ c.length)
    (a : Assignment) : fixUnits clauses a = .ok a := by
  have hunits : clauses.filter Clause.isUnit = [] := by
    rw [List.filter_eq_nil_iff]
    intro c hc
    have hlength := h c hc
    match c with
    | [_] => simp at hlength
    | [] => simp [Clause.isUnit]
    | _ :: _ :: _ => simp [Clause.isUnit]
  rw [← fixUnits_filter, hunits, fixUnits]

/-- Clauses without values have nothing to be reduced. -/
theorem reduceClauses_eq_of_free {clauses : List Clause} {a : Assignment}
    (h : ∀ c ∈ clauses, ∀ l ∈ c, a.value? l.var = none) : reduceClauses clauses a = clauses := by
  have hclause (c : Clause) (hc : c ∈ clauses) : reduceClause a c = some c := by
    have hvalue (l : Literal) (hl : l ∈ c) : a.literalValue? l = none :=
      Assignment.literalValue?_eq_none.mpr (h c hc l hl)
    have hunsatisfied : ¬ a.satisfies c = true := by
      simp only [Assignment.satisfies, List.any_eq_true, not_exists, not_and]
      intro l hl
      simp [hvalue l hl]
    rw [reduceClause, if_neg hunsatisfied, List.filter_eq_self.mpr]
    intro l hl
    simp [Assignment.falsifies, hvalue l hl]
  unfold reduceClauses
  clear h
  induction clauses with
  | nil => rfl
  | cons c rest ih =>
    obtain ⟨hfirst, hrest⟩ := List.forall_mem_cons.mp hclause
    rw [List.filterMap_cons, hfirst, ih hrest]

end Pass

namespace Reduct.Irreducible

variable {r : Reduct}

/-- The clauses of an irreducible reduct are in canonical form. -/
theorem simplify_eq (h : r.Irreducible) : simplify r.clauses = r.clauses := by
  have hmap : r.clauses.map Clause.canonical = r.clauses.map id :=
    List.map_congr_left fun c hc =>
      sortDistinct_of_ascending (Clause.ascending_iff.mpr (h.literals_ascending c hc))
  apply (ascending_simplify r.clauses).eq_of_mem_iff (ascending_clauses_iff.mpr h.clauses_ascending)
  intro c
  rw [mem_simplify, hmap, List.map_id]
  apply and_iff_left_of_imp
  rintro hc ⟨_, l, _, hunit⟩
  have hlength := h.two_le [l] hunit
  simp at hlength

/-- An irreducible reduct has no pure literal. -/
theorem pureLiterals_eq (h : r.Irreducible) :
    Pass.pureLiterals r.clauses r.assignment = [] := by
  rw [List.eq_nil_iff_forall_not_mem]
  intro l hl
  obtain ⟨⟨c, hc, hmem⟩, _, hlone⟩ := Pass.mem_pureLiterals.mp hl
  obtain ⟨d, hd, hnegate⟩ := h.mixed c hc l hmem
  exact hlone d hd hnegate

/-- A standard round does not change an irreducible formula. -/
theorem run_standard (h : r.Irreducible) : Pass.run .standard r = .ok r := by
  have hempty : r.clauses.any List.isEmpty = false := by
    rw [List.any_eq_false]
    intro c hc hnil
    have hlength := h.two_le c hc
    rw [List.isEmpty_iff.mp hnil] at hlength
    simp at hlength
  have htautology : (r.clauses.filter fun c => !c.isTautology) = r.clauses := by
    rw [List.filter_eq_self]
    intro c hc
    simpa [Clause.isTautology] using h.consistent c hc
  have hassign : r.assignment.assignAll [] = .ok r.assignment := rfl
  simp only [Pass.standard, Pass.run, Pass.runAll, Pass.fixUnits_eq_of_two_le h.two_le,
    Pass.reduceClauses_eq_of_free h.free, hempty, h.pureLiterals_eq, hassign, htautology,
    h.simplify_eq, Bool.false_eq_true, if_false]

/-- The standard reductions leave an irreducible reduct as it is. -/
theorem runToFixpoint_standard (h : r.Irreducible) : Pass.runToFixpoint .standard r = .ok r := by
  rw [Pass.runToFixpoint_eq, h.run_standard]
  exact if_pos (Pass.isStable_iff.mpr ⟨rfl, rfl⟩)

end Reduct.Irreducible

end Clausal
