import Clausal.Proofs.Solver.Correctness

namespace Clausal

namespace Search

/-- How position, records, assignment, marks and watch index of a search agree,
    where `fixed` is the assignment in front of the search. The variables that the
    records list are distinct and without a value in `fixed`, and they are all
    that the assignment adds to it. -/
structure Consistent (p : Problem) (fixed : Assignment) (s : State) : Prop where
  position : s.position ≤ p.order.vars.size
  positions : s.trail.size = p.order.vars.size
  recorded : ∀ i < s.position, ∃ step, s.trail.stepAt i = .ok (some step)
  unrecorded : ∀ i, s.position ≤ i → i < p.order.vars.size → s.trail.stepAt i = .ok none
  assignment : fixed.Gains (s.trail.chosen s.position) s.assignment
  decided : ∀ i < s.position, ∀ l implied, s.trail.stepAt i = .ok (some (.decision l implied)) →
    s.assignment.value? l.var = some l.polarity
  valued : ∀ i < s.position, ∀ v, p.order.vars[i]? = some v → (s.assignment.value? v).isSome
  untried_skipped : ∀ i < s.position, s.trail.stepAt i = .ok (some .skipped) →
    ∀ l : Literal, p.order.vars[i]? = some l.var → s.trail.isTried l = false
  untried_behind : ∀ i > s.position, ∀ l : Literal, p.order.vars[i]? = some l.var →
    s.trail.isTried l = false
  untried_outside : ∀ l : Literal, l.var ∉ p.order.vars → s.trail.isTried l = false
  tried_unassigned : ∀ l : Literal, p.order.vars[s.position]? = some l.var →
    s.trail.isTried l = true → s.assignment.value? l.var = none
  watched : s.watches.audit p.clauses s.assignment = .ok ()

private theorem stepAt_eq_ok {t : Trail} {i : Nat} {record : Option Step} :
    t.stepAt i = .ok record ↔ t.steps[i]? = some record := by
  unfold Trail.stepAt
  split <;> simp_all

/-- The invariant of the search says all that consistency asks for. -/
theorem Invariant.consistent {p : Problem} {fixed : Assignment} {s : State}
    (h : Invariant p fixed s) : Consistent p fixed s where
  position := h.path.position_le
  positions := h.steps
  recorded i hi := by
    obtain ⟨step, hstep⟩ := h.path.recorded hi
    exact ⟨step, stepAt_eq_ok.mpr hstep⟩
  unrecorded i hle hi := stepAt_eq_ok.mpr (h.unvisited i hle hi)
  assignment := h.path.gains
  decided i hi l implied hstep := h.path.decision_true hi (stepAt_eq_ok.mp hstep)
  valued i hi v hv := h.path.isSome_value? hi hv
  untried_skipped i hi hstep l hl := h.path.untried_of_skipped hi (stepAt_eq_ok.mp hstep) hl
  untried_behind i hi l hl := by
    apply Bool.eq_false_iff.mpr
    intro htried
    obtain ⟨j, hj, hjl⟩ := h.marks l htried
    exact order_ne (show i ≠ j by omega) hl hjl rfl
  untried_outside l hl := by
    apply Bool.eq_false_iff.mpr
    intro htried
    obtain ⟨j, _, hjl⟩ := h.marks l htried
    exact hl (Array.mem_of_getElem? hjl)
  tried_unassigned l hl htried := (h.excluded l hl htried).1
  watched := h.watches.audit_eq_ok

end Search

namespace Solver

/-- Every state at the head of the loop of a search that a solve starts is
    consistent, whether the search goes on from there or ends, so checking the
    index never fails and changes nothing. If the search finds that there is no
    solution, it has taken back all of its values. -/
theorem search_consistent (options : Options) (f : Formula) (hvalid : f.validate = .ok ()) :
    (∀ (p : Search.Problem) (origin : Search.State), Launches options f p origin →
      (∀ s, Search.Visits p origin s → Search.Consistent p origin.assignment s) ∧
      ∀ (fires : Nat → Bool) (log : Log) (verdict : Verdict) (s : Search.State),
        (Id.run (Search.run (fun round => pure (fires round)) p 0 origin log)).result =
          .ok (verdict, s) →
        if verdict = .unsatisfiable then s.assignment = origin.assignment
        else Search.Consistent p origin.assignment s) ∧
    ∀ interrupt log,
      (∀ clause, (solve { options with audit := true } interrupt f log).result ≠
        .error (.error (.watchInvariant clause))) ∧
      solve { options with audit := true } interrupt f log =
        solve { options with audit := false } interrupt f log := by
  have hf := Formula.validate_eq_ok_iff.mp hvalid
  refine ⟨fun p origin hlaunch => ⟨fun s hvisits => ?_, fun fires log verdict s hrun => ?_⟩,
    fun interrupt log => ?_⟩
  · exact (hvisits.invariant (hlaunch.wellPosed hf) (hlaunch.invariant hf)).consistent
  · obtain ⟨ending, hending, verdict', s', hresult, hends⟩ :=
      Search.run_spec fires (hlaunch.wellPosed hf) (hlaunch.invariant hf) 0 log
    rw [hending p.audit, hresult] at hrun
    cases hrun
    cases verdict with
    | satisfiable => exact hends.1.consistent
    | unsatisfiable => exact hends.1
    | unknown => exact hends.1.consistent
  · obtain ⟨outcome, houtcome, solution, hresult, _⟩ := solve_spec hf options interrupt log
    refine ⟨fun clause hfailed => ?_, (houtcome true).trans (houtcome false).symm⟩
    rw [houtcome true, hresult] at hfailed
    cases hfailed

/-- Two variables in all four combinations, searched without reductions. The search
    ends without a solution, back at the assignment it has started with. -/
theorem search_consistent_of_square :
    ∃ f p origin s, Formula.ofRows [[1, 2], [1, -2], [-1, 2], [-1, -2]] = .ok f ∧
      f.validate = .ok () ∧ Launches { preprocess := false } f p origin ∧
      Search.Consistent p origin.assignment origin ∧
      (Id.run (Search.run (fun _ => pure false) p 0 origin (.empty none))).result =
        .ok (.unsatisfiable, s) ∧ s.assignment = origin.assignment ∧
      solve { preprocess := false, audit := true } .never f (.empty none) =
        solve { preprocess := false, audit := false } .never f (.empty none) := by
  obtain ⟨f, hrows, hvalid, ⟨w, hwatches⟩, hnone⟩ := exists_square
  have hf := Formula.validate_eq_ok_iff.mp hvalid
  have hprepare : prepare { preprocess := false } f =
      .ok (.ready ⟨f.clauses, .blank f.numVars⟩) := by
    simp only [prepare, Assignment.create_eq_ok hf.numVars]
    rfl
  obtain ⟨order, _, hlaunch⟩ := exists_launches hf hprepare hwatches
  obtain ⟨ending, hrun, verdict, s, hresult, hends⟩ := Search.run_spec (fun _ => false)
    (hlaunch.wellPosed hf) (hlaunch.invariant hf) 0 (.empty none)
  have hsearch := (search_consistent { preprocess := false } f hvalid).1 _ _ hlaunch
  have haudit := (search_consistent { preprocess := false } f hvalid).2 .never (.empty none)
  cases verdict with
  | satisfiable => exact absurd (hends.1.satisfies (hlaunch.wellPosed hf) hends.2) (hnone _)
  | unknown => exact absurd hends.2.choose_spec Bool.false_ne_true
  | unsatisfiable =>
    have hunsatisfiable := (congrArg Search.Ending.result (hrun false)).trans hresult
    exact ⟨f, _, _, s, hrows, hvalid, hlaunch, hsearch.1 _ .start, hunsatisfiable,
      hsearch.2 _ _ _ s hunsatisfiable, haudit.2⟩

end Solver

end Clausal
