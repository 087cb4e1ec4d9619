import Clausal.Proofs.Search.Invariant

namespace Clausal

namespace Search

variable {p : Problem} {fixed : Assignment} {s : State}

/-- A position at which rewinding stops is again the head of a round. The watch
    index is not rewound, but watches that are not false stay so when values are
    taken back. -/
private theorem Invariant.rewound (h : Invariant p fixed s) {cleared trail : Trail}
    (hsteps : cleared.steps = s.trail.steps) (htried : cleared.tried.size = s.trail.tried.size)
    {stop : Nat} {assignment : Assignment}
    (hstops : StopsAt p fixed s.position cleared s.assignment stop trail assignment)
    (stats : Statistics) :
    Invariant p fixed ⟨stop, assignment, s.watches, trail, stats⟩ := by
  have hsame (l : Literal) : trail.isTried l = cleared.isTried l :=
    Trail.isTried_congr hstops.tried l
  refine ⟨hstops.path, ?_, ?_, ?_, ?_, ?_, h.buckets, h.watches.of_extends hstops.fewer⟩
  · rw [hstops.size, hsteps]
    exact h.steps
  · intro i hle hi
    rcases Nat.lt_or_ge i s.position with hlt | hge
    · exact hstops.cleared i hle hlt
    · rw [hstops.kept i hge, hsteps]
      exact h.unvisited i hge hi
  · rw [hstops.tried, htried]
    exact h.tried
  · intro l hl
    rw [hsame] at hl
    exact hstops.marks l hl
  · intro l hv hl
    rw [hsame] at hl
    exact hstops.excluded l hv hl

/-- If both literals of a variable have failed, nothing is left to find under the
    values in front of it. -/
private theorem Invariant.refutes_of_tried (h : Invariant p fixed s) {v : Variable}
    (hv : p.order.vars[s.position]? = some v)
    (hboth : ∀ l : Literal, l.var = v → s.trail.isTried l = true) :
    s.assignment.Refutes p.clauses.toList := by
  have hexcluded (l : Literal) (hl : l.var = v) : s.assignment.Excludes p.clauses.toList l :=
    (h.excluded l (by rw [hl]; exact hv) (hboth l hl)).2
  apply Assignment.refutes_of_excludes (l := v.literal true)
  · exact hexcluded _ (by simp)
  · exact hexcluded _ (by simp)

/-- Removing the marks at the current position leaves the path to it as it is and
    no mark at or behind it. -/
theorem Invariant.unmarked (h : Invariant p fixed s) {v : Variable}
    (hv : p.order.vars[s.position]? = some v) {cleared : Trail}
    (hsteps : cleared.steps = s.trail.steps)
    (hmarks : ∀ m, cleared.isTried m = if m.var = v then false else s.trail.isTried m) :
    Path p fixed cleared s.position s.assignment ∧
      ∀ l, cleared.isTried l = true → ∃ i < s.position, p.order.vars[i]? = some l.var := by
  constructor
  · apply h.path.congr
    · intro i _
      rw [hsteps]
    · intro i hi l hl
      rw [hmarks, if_neg (order_ne (Nat.ne_of_lt hi) hl hv)]
  · intro l hl
    rw [hmarks] at hl
    have hne : l.var ≠ v := by
      intro heq
      rw [if_pos heq] at hl
      cases hl
    rw [if_neg hne] at hl
    obtain ⟨i, hi, hil⟩ := h.marks l hl
    refine ⟨i, Nat.lt_of_le_of_ne hi ?_, hil⟩
    rintro rfl
    rw [hv] at hil
    exact hne (Option.some.inj hil).symm

/-- Leaving a position at which both literals have failed keeps the invariant or
    ends the search with the assignment it started with. -/
theorem retreat_spec (hp : WellPosed p fixed) (h : Invariant p fixed s) {v : Variable}
    (hv : p.order.vars[s.position]? = some v)
    (hboth : ∀ l : Literal, l.var = v → s.trail.isTried l = true) :
    ∃ result, retreat v s = .ok result ∧ result.Correct p fixed := by
  have hrefutes := h.refutes_of_tried hv hboth
  obtain ⟨position, assignment, watches, trail, stats⟩ := s
  dsimp only at hv hrefutes
  have hrange : v.id ≤ fixed.numVars := hp.order v (Array.mem_of_getElem? hv)
  obtain ⟨cleared, hclear, hsteps, hsize, hmarks⟩ := Trail.clearTried_spec h.tried hrange
  obtain ⟨hpath, hfront⟩ := h.unmarked hv hsteps hmarks
  obtain ⟨⟨stop, trail', assignment'⟩, hrewind, hspec⟩ :=
    rewind_path hp.numVars hpath hrefutes hfront
  cases stop with
  | none =>
    exact ⟨.finished .unsatisfiable ⟨0, assignment', watches, trail', stats⟩,
      by simp only [retreat, hclear, hrewind], hspec⟩
  | some stop =>
    exact ⟨.moved .retreat ⟨stop, assignment', watches, trail',
      { stats with backtracks := stats.backtracks + 1 }⟩,
      by simp only [retreat, hclear, hrewind], h.rewound hsteps hsize hspec _⟩

/-- Literals are tried only where their variable has no value. -/
private theorem Invariant.untried_of_isSome (h : Invariant p fixed s) {v : Variable}
    (hv : p.order.vars[s.position]? = some v) (hvalue : (s.assignment.value? v).isSome)
    (l : Literal) (hl : l.var = v) : s.trail.isTried l = false := by
  apply Bool.eq_false_iff.mpr
  intro htried
  have hnone := (h.excluded l (by rw [hl]; exact hv) htried).1
  rw [hl] at hnone
  rw [hnone] at hvalue
  cases hvalue

/-- A position without a record is passed over if and only if its variable has a
    value. -/
private theorem Invariant.isSettled_eq (h : Invariant p fixed s) {v : Variable}
    (hv : p.order.vars[s.position]? = some v) :
    isSettled v none s = (s.assignment.value? v).isSome := by
  cases hvalue : (s.assignment.value? v).isSome with
  | false => simp [isSettled, hvalue]
  | true =>
    have huntried (b : Bool) : s.trail.isTried (v.literal b) = false :=
      h.untried_of_isSome hv hvalue _ (Variable.var_literal v b)
    simp [isSettled, hvalue, Trail.anyTried, huntried]

/-- What a round does at a position, with the record there known to be absent. -/
private theorem Invariant.step_eq (h : Invariant p fixed s) {v : Variable}
    (hv : p.order.vars[s.position]? = some v) (audit : Bool) :
    step { p with audit := audit } s =
      if (s.assignment.value? v).isSome then skip s
      else ((p.order.phases v).find? fun l => !s.trail.isTried l).elim (retreat v s) fun l =>
        attempt { p with audit := audit } l s := by
  obtain ⟨hposition, rfl⟩ := Array.getElem?_eq_some_iff.mp hv
  obtain ⟨hsize, hnone⟩ :=
    Array.getElem?_eq_some_iff.mp (h.unvisited s.position (Nat.le_refl _) hposition)
  simp only [step, Trail.stepAt, dif_pos hposition, dif_pos hsize, hnone, h.isSettled_eq hv]
  cases (p.order.phases p.order.vars[s.position]).find? fun l => !s.trail.isTried l <;> rfl

/-- One round of the search loop succeeds and keeps the invariant or ends the
    search, and what it does is independent of whether the index is checked. -/
theorem step_spec (hp : WellPosed p fixed) (h : Invariant p fixed s) :
    ∃ result, (∀ audit, step { p with audit := audit } s = .ok result) ∧
      result.Correct p fixed := by
  cases hv : p.order.vars[s.position]? with
  | none =>
    have hposition := Nat.not_lt.mpr (Array.getElem?_eq_none_iff.mp hv)
    have hend : s.position = p.order.vars.size :=
      Nat.le_antisymm h.path.position_le (Nat.le_of_not_lt hposition)
    exact ⟨.finished .satisfiable s, fun _ => by simp only [step, dif_neg hposition, if_pos hend],
      h, hend⟩
  | some v =>
    simp only [h.step_eq hv]
    cases hvalue : s.assignment.value? v with
    | some b =>
      have hsome : (s.assignment.value? v).isSome := by rw [hvalue]; rfl
      obtain ⟨result, hskip, hcorrect⟩ := skip_spec h hv hsome (h.untried_of_isSome hv hsome)
      exact ⟨result, fun _ => hskip, hcorrect⟩
    | none =>
      cases hfind : (p.order.phases v).find? fun l => !s.trail.isTried l with
      | some l =>
        obtain rfl : l.var = v := BranchOrder.mem_phases.mp (List.mem_of_find?_eq_some hfind)
        exact attempt_spec hp h hv hvalue
      | none =>
        have hboth (l : Literal) (hl : l.var = v) : s.trail.isTried l = true := by
          have hall := List.find?_eq_none.mp hfind l (BranchOrder.mem_phases.mpr hl)
          simpa using hall
        obtain ⟨result, hretreat, hcorrect⟩ := retreat_spec hp h hv hboth
        exact ⟨result, fun _ => hretreat, hcorrect⟩

end Search

end Clausal
