import Clausal.Search.State

namespace Clausal.Search

variable {p : Problem} {s : State} {result : Transition}

/-- Passing over a position writes a record and goes on at the next one. -/
theorem skip_cases (h : skip s = .ok result) :
    ∃ trail, s.trail.record s.position .skipped = .ok trail ∧
      result = .moved .skip ⟨s.position + 1, s.assignment, s.watches, trail, s.stats⟩ := by
  obtain ⟨position, assignment, watches, trail, stats⟩ := s
  unfold skip at h
  dsimp only at h
  split at h
  · cases h
  · rename_i trail' hrecord
    cases h
    exact ⟨trail', hrecord, rfl⟩

/-- A literal that is tried is marked and counted as a decision. It is recorded, or
    counted as a conflict. -/
theorem attempt_cases {l : Literal} (h : attempt p l s = .ok result) :
    ∃ marked, s.trail.markTried l = .ok marked ∧
      ((∃ implications assignment watches trail,
        marked.record s.position (.decision l (Propagation.impliedVars implications)) = .ok trail ∧
        result = .moved (.decide l implications) ⟨s.position + 1, assignment, watches, trail,
          { s.stats with
            decisions := s.stats.decisions + 1
            propagations := s.stats.propagations + implications.size }⟩) ∨
      ∃ implications clause assignment watches,
        result = .moved (.fail l implications clause) ⟨s.position, assignment, watches, marked,
          { s.stats with
            decisions := s.stats.decisions + 1
            conflicts := s.stats.conflicts + 1 }⟩) := by
  obtain ⟨position, assignment, watches, trail, stats⟩ := s
  unfold attempt at h
  dsimp only at h
  split at h
  · cases h
  · rename_i marked hmark
    refine ⟨marked, hmark, ?_⟩
    split at h
    · cases h
    · split at h
      · cases h
      · split at h
        · cases h
        · split at h
          · cases h
          · rename_i trail' hrecord
            cases h
            exact .inl ⟨_, _, _, trail', hrecord, rfl⟩
      · split at h
        · cases h
        · cases h
          exact .inr ⟨_, _, _, _, rfl⟩

/-- Leaving a position removes its marks. The search is over or has taken back a
    decision, which is counted. -/
theorem retreat_cases {v : Variable} (h : retreat v s = .ok result) :
    ∃ cleared, s.trail.clearTried v = .ok cleared ∧
      ((∃ trail assignment, rewind s.position cleared s.assignment = .ok (none, trail, assignment) ∧
        result = .finished .unsatisfiable ⟨0, assignment, s.watches, trail, s.stats⟩) ∨
      ∃ stop trail assignment,
        rewind s.position cleared s.assignment = .ok (some stop, trail, assignment) ∧
        result = .moved .retreat ⟨stop, assignment, s.watches, trail,
          { s.stats with backtracks := s.stats.backtracks + 1 }⟩) := by
  obtain ⟨position, assignment, watches, trail, stats⟩ := s
  unfold retreat at h
  dsimp only at h
  split at h
  · cases h
  · rename_i cleared hclear
    refine ⟨cleared, hclear, ?_⟩
    split at h
    · cases h
    · rename_i hrewind
      cases h
      exact .inl ⟨_, _, hrewind, rfl⟩
    · rename_i hrewind
      cases h
      exact .inr ⟨_, _, _, hrewind, rfl⟩

/-- A round passes over its position if nothing has been tried there, tries a literal
    that has not been tried there, or leaves it when both have been. If there is no
    position left, it ends the search. -/
theorem step_cases (h : step p s = .ok result) :
    result = .finished .satisfiable s ∨ ∃ v, p.order.vars[s.position]? = some v ∧
      (s.trail.anyTried v = false ∧ skip s = .ok result ∨
      (∃ l, l.var = v ∧ s.trail.isTried l = false ∧ attempt p l s = .ok result) ∨
      (∀ l : Literal, l.var = v → s.trail.isTried l = true) ∧ retreat v s = .ok result) := by
  unfold step at h
  split at h
  · rename_i hposition
    refine .inr ⟨_, Array.getElem?_eq_getElem hposition, ?_⟩
    dsimp only at h
    split at h
    · cases h
    · split at h
      · rename_i hsettled
        simp only [isSettled, Bool.and_eq_true, Bool.not_eq_true'] at hsettled
        exact .inl ⟨hsettled.2, h⟩
      · split at h
        · rename_i l hfind
          have huntried : s.trail.isTried l = false := by simpa using List.find?_some hfind
          have hvar := BranchOrder.mem_phases.mp (List.mem_of_find?_eq_some hfind)
          exact .inr (.inl ⟨l, hvar, huntried, h⟩)
        · rename_i hfind
          refine .inr (.inr ⟨fun l hl => ?_, h⟩)
          simpa using List.find?_eq_none.mp hfind l (BranchOrder.mem_phases.mpr hl)
  · split at h
    · cases h
      exact .inl rfl
    · cases h

/-- A search ends with a solution at the head of a round, or without one where both
    literals have failed and there is no decision to take back. -/
theorem finished_cases {verdict : Verdict} {s' : State}
    (h : step p s = .ok (.finished verdict s')) :
    verdict = .satisfiable ∧ s' = s ∨
      verdict = .unsatisfiable ∧ ∃ v cleared trail assignment,
        p.order.vars[s.position]? = some v ∧
        (∀ l : Literal, l.var = v → s.trail.isTried l = true) ∧
        s.trail.clearTried v = .ok cleared ∧
        rewind s.position cleared s.assignment = .ok (none, trail, assignment) ∧
        s' = ⟨0, assignment, s.watches, trail, s.stats⟩ := by
  obtain hend | ⟨v, hv, ⟨_, hskip⟩ | ⟨l, _, _, hattempt⟩ | ⟨hboth, hretreat⟩⟩ := step_cases h
  · cases hend
    exact .inl ⟨rfl, rfl⟩
  · obtain ⟨_, _, heq⟩ := skip_cases hskip
    cases heq
  · obtain ⟨_, _, ⟨_, _, _, _, _, heq⟩ | ⟨_, _, _, _, heq⟩⟩ := attempt_cases hattempt
    · cases heq
    · cases heq
  · obtain ⟨cleared, hclear, ⟨trail, assignment, hrewind, heq⟩ | ⟨_, _, _, _, heq⟩⟩ :=
      retreat_cases hretreat
    · cases heq
      exact .inr ⟨rfl, v, cleared, trail, assignment, hv, hboth, hclear, hrewind, rfl⟩
    · cases heq

end Clausal.Search
