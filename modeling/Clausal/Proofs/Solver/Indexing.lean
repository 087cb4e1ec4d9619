import Clausal.Proofs.Reduction.Irreducible
import Clausal.Proofs.Solver.Launch

namespace Clausal

namespace Log

variable {log : Log} {e : Event}

/-- Adding another event does not add the given one. -/
theorem notMem_emit {e' : Event} (h : e ∉ log.records) (hne : e ≠ e') :
    e ∉ (log.emit e').records := by
  unfold emit
  split
  · simp [h, hne]
  · exact h

/-- Adding other events does not add the given one. -/
theorem notMem_emitAll {events : List Event} (h : e ∉ log.records) (hne : e ∉ events) :
    e ∉ (log.emitAll events).records := by
  induction events generalizing log with
  | nil => exact h
  | cons e' events ih =>
    rw [List.mem_cons, not_or] at hne
    exact ih (notMem_emit h hne.1) hne.2

end Log

namespace Watches

/-- A clause that is not false finds a place in the index. -/
private theorem place_ne_conflict {a : Assignment} {entry : Clause × Nat}
    (hopen : ∃ l ∈ entry.1, a.value? l.var = none) (w : Watches) (conflict : Conflict) :
    place a w entry ≠ .error (.error conflict) := by
  obtain ⟨l, hl, hnone⟩ := hopen
  unfold place
  cases hfind : entry.1.find? fun l => !a.falsifies l with
  | none =>
    have hfalse := List.find?_eq_none.mp hfind l hl
    simp [Assignment.falsifies_iff, hnone] at hfalse
  | some m =>
    cases hpush : w.push m entry.2 <;> simp [hpush, liftM, monadLift, MonadLift.monadLift]

private theorem foldlM_place_ne_conflict {a : Assignment} {entries : List (Clause × Nat)}
    (hopen : ∀ entry ∈ entries, ∃ l ∈ entry.1, a.value? l.var = none) (w : Watches)
    (conflict : Conflict) : entries.foldlM (place a) w ≠ .error (.error conflict) := by
  induction entries generalizing w with
  | nil => intro h; cases h
  | cons entry entries ih =>
    obtain ⟨hfirst, hrest⟩ := List.forall_mem_cons.mp hopen
    rw [List.foldlM_cons]
    cases hplace : place a w entry with
    | ok w' => exact ih hrest w'
    | error failure =>
      intro h
      cases h
      exact place_ne_conflict hfirst w conflict hplace

/-- Building the index of clauses that all have a literal without a value meets no
    false clause. -/
theorem ofClauses_ne_conflict {clauses : List Clause} {a : Assignment}
    (hopen : ∀ c ∈ clauses, ∃ l ∈ c, a.value? l.var = none) (numVars : Nat)
    (conflict : Conflict) : ofClauses clauses numVars a ≠ .error (.error conflict) := by
  unfold ofClauses
  cases create numVars with
  | error reason => intro h; cases h
  | ok w =>
    exact foldlM_place_ne_conflict (fun entry hentry =>
      hopen entry.1 (List.fst_mem_of_mem_zipIdx hentry)) w conflict

/-- An index can be built of clauses that all have a literal without a value. -/
theorem exists_ofClauses {clauses : List Clause} {numVars : Nat} {a : Assignment}
    (hmax : numVars ≤ Variable.maxId) (hrange : ∀ c ∈ clauses, ∀ l ∈ c, l.var.id ≤ numVars)
    (hopen : ∀ c ∈ clauses, ∃ l ∈ c, a.value? l.var = none) :
    ∃ w, ofClauses clauses numVars a = .ok w := by
  have hspec := ofClauses_spec (a := a) hmax hrange
  match hresult : ofClauses clauses numVars a with
  | .ok w => exact ⟨w, rfl⟩
  | .error (.error conflict) =>
    exact absurd hresult (ofClauses_ne_conflict hopen numVars conflict)
  | .error (.fault _) =>
    rw [hresult] at hspec
    exact hspec.elim

end Watches

/-- Every clause of an irreducible reduct has a literal without a value. -/
theorem Reduct.Irreducible.exists_free {r : Reduct} (h : r.Irreducible) :
    ∀ c ∈ r.clauses, ∃ l ∈ c, r.assignment.value? l.var = none := by
  intro c hc
  have hlength := h.two_le c hc
  obtain ⟨l, hl⟩ := List.exists_mem_of_length_pos (by omega : 0 < c.length)
  exact ⟨l, hl, h.free c hc l hl⟩

namespace Search

/-- No move of the search reports that a clause is false before the search. -/
theorem falseBeforeSearch_notMem_events (move : Move) (position : Nat) :
    .falseBeforeSearch ∉ move.events position := by
  cases move <;> simp [Move.events, Propagation.events]

private theorem exists_events_of_attempt_eq_error {p : Problem} {l : Literal} {s : State}
    {halt : Halt} (h : attempt p l s = .error halt) :
    ∃ move : Move, halt.events = move.events s.position := by
  simp only [attempt] at h
  split at h
  · cases h
    exact ⟨.skip, rfl⟩
  split at h
  · cases h
    exact ⟨.skip, rfl⟩
  split at h
  · cases h
    exact ⟨.decide l _, rfl⟩
  · split at h
    · cases h
      exact ⟨.decide l _, rfl⟩
    · split at h <;> cases h
      exact ⟨.decide l _, rfl⟩
  · split at h <;> cases h
    exact ⟨.fail l _ _, rfl⟩

/-- A round that cannot be finished has sent the events of the move it had begun,
    and those of no other. -/
theorem exists_events_of_step_eq_error {p : Problem} {s : State} {halt : Halt}
    (h : step p s = .error halt) : ∃ move : Move, halt.events = move.events s.position := by
  simp only [step] at h
  split at h
  · split at h
    · cases h
      exact ⟨.skip, rfl⟩
    · split at h
      · simp only [skip] at h
        split at h <;> cases h
        exact ⟨.skip, rfl⟩
      · split at h
        · exact exists_events_of_attempt_eq_error h
        · simp only [retreat] at h
          repeat' split at h
          all_goals cases h
          all_goals exact ⟨.retreat, rfl⟩
  · split at h <;> cases h
    exact ⟨.skip, rfl⟩

/-- A whole search does not report a clause that is false before it either. -/
theorem falseBeforeSearch_notMem_run (fires : Nat → Bool) (p : Problem) (rounds : Nat)
    (s : State) {log : Log} (h : .falseBeforeSearch ∉ log.records) :
    .falseBeforeSearch ∉
      (Id.run (run (fun round => pure (fires round)) p rounds s log)).log.records := by
  rw [run_eq]
  cases fires rounds with
  | true => exact Log.notMem_emit h (by simp)
  | false =>
    simp only [Bool.false_eq_true, if_false]
    match hstep : step p s with
    | .error halt =>
      obtain ⟨move, hevents⟩ := exists_events_of_step_eq_error hstep
      exact Log.notMem_emitAll h (hevents ▸ falseBeforeSearch_notMem_events move s.position)
    | .ok (.finished verdict s') => exact h
    | .ok (.moved move s') =>
      have hless := remaining_step hstep
      exact falseBeforeSearch_notMem_run fires p (rounds + 1) s'
        (Log.notMem_emitAll h (falseBeforeSearch_notMem_events move s.position))
termination_by remaining p s

end Search

namespace Solver

/-- Whether the formula has been reduced or not, every clause has a literal without
    a value when the search is to start. -/
theorem exists_free_of_prepare {options : Options} {f : Formula} {r : Reduct}
    (hf : f.WellFormed) (h : prepare options f = .ok (.ready r)) :
    ∀ c ∈ r.clauses, ∃ l ∈ c, r.assignment.value? l.var = none := by
  simp only [prepare, Assignment.create_eq_ok hf.numVars, bind, Except.bind] at h
  split at h
  · split at h
    · rename_i hrun
      cases h
      exact (Pass.irreducible_of_runToFixpoint (covered_blank hf) hrun).exists_free
    · cases h
    · cases h
  · cases h
    intro c hc
    obtain ⟨l, hl⟩ := List.exists_mem_of_ne_nil c (hf.nonempty c hc)
    exact ⟨l, hl, Assignment.value?_blank _ _⟩

/-- The index is built without such a report if every clause has a literal without a
    value. -/
theorem falseBeforeSearch_notMem_search (fires : Nat → Bool) (options : Options) (numVars : Nat)
    {r : Reduct} {log : Log} (hopen : ∀ c ∈ r.clauses, ∃ l ∈ c, r.assignment.value? l.var = none)
    (h : .falseBeforeSearch ∉ log.records) :
    .falseBeforeSearch ∉
      (Id.run (search (fun round => pure (fires round)) options numVars r log)).log.records := by
  have hreduced : .falseBeforeSearch ∉ (log.emit
      (.reductionFinished r.clauses.length r.assignment.fixedCount)).records :=
    Log.notMem_emit h (by simp)
  simp only [search]
  match hwatches : Watches.ofClauses r.clauses numVars r.assignment with
  | .error (.fault reason) => exact hreduced
  | .error (.error conflict) =>
    exact absurd hwatches (Watches.ofClauses_ne_conflict hopen numVars conflict)
  | .ok w =>
    have hne : .falseBeforeSearch ≠ w.builtEvent r.clauses.length := by
      simp [Watches.builtEvent]
    have hbuilt := Log.notMem_emit hreduced hne
    cases BranchOrder.ofClauses r.clauses r.assignment with
    | error reason => exact hbuilt
    | ok order =>
      have hrun := Search.falseBeforeSearch_notMem_run fires
        ⟨r.clauses.toArray, order, options.audit⟩ 0 (Search.start
          ⟨r.clauses.toArray, order, options.audit⟩ numVars r.assignment w
          r.assignment.fixedCount) hbuilt
      simp only [Id.run_bind]
      split
      · exact hrun
      · exact Log.notMem_emit hrun (by simp)

/-- No solve reports that a clause is false before the search. -/
theorem falseBeforeSearch_notMem_solve (options : Options) (interrupt : Interrupt) (f : Formula)
    {log : Log} (h : .falseBeforeSearch ∉ log.records) :
    .falseBeforeSearch ∉ (solve options interrupt f log).log.records := by
  simp only [solve, solveWith]
  cases hvalid : f.validate with
  | error cause => exact h
  | ok _ =>
    have hf := Formula.validate_eq_ok_iff.mp hvalid
    have hstarted : .falseBeforeSearch ∉
        (log.emit (.solveStarted f.clauses.length f.numVars)).records :=
      Log.notMem_emit h (by simp)
    match hprepare : prepare options f with
    | .error reason => exact hstarted
    | .ok (.ready r) =>
      exact falseBeforeSearch_notMem_search interrupt.fires options f.numVars
        (exists_free_of_prepare hf hprepare) hstarted
    | .ok (.contradiction cause) =>
      refine Log.notMem_emitAll hstarted ?_
      cases cause <;> simp [ContradictionCause.event?]

/-- Repeating the standard reductions until nothing changes leaves a formula at
    which none of them has anything left to do. Its index can be built, because no
    clause is false, and a solve never finds one that is. -/
theorem standard_fixpoint_irreducible :
    (∀ (clauses : List Clause) (a : Assignment) (r : Reduct),
      (∀ c ∈ clauses, ∀ l ∈ c, l.var.id ≤ a.numVars) →
      Pass.runToFixpoint .standard ⟨clauses, a⟩ = .ok r →
      r.Irreducible ∧ Pass.run .standard r = .ok r ∧
      (∀ numVars conflict,
        Watches.ofClauses r.clauses numVars r.assignment ≠ .error (.error conflict)) ∧
      (a.numVars ≤ Variable.maxId →
        ∃ w, Watches.ofClauses r.clauses a.numVars r.assignment = .ok w)) ∧
    ∀ (options : Options) (interrupt : Interrupt) (f : Formula) (log : Log),
      .falseBeforeSearch ∉ log.records →
      .falseBeforeSearch ∉ (solve options interrupt f log).log.records := by
  refine ⟨fun clauses a r hrange hfixpoint => ?_, fun options interrupt f log =>
    falseBeforeSearch_notMem_solve options interrupt f⟩
  have hpreserves := Pass.correct_runToFixpoint .standard (r := ⟨clauses, a⟩) hrange
  rw [hfixpoint] at hpreserves
  have hirreducible := Pass.irreducible_of_runToFixpoint (r := ⟨clauses, a⟩) hrange hfixpoint
  refine ⟨hirreducible, hirreducible.run_standard,
    Watches.ofClauses_ne_conflict hirreducible.exists_free, fun hmax => ?_⟩
  apply Watches.exists_ofClauses hmax _ hirreducible.exists_free
  rw [← hpreserves.numVars]
  exact hpreserves.covered hrange

/-- Two clauses that exclude each other's literals, one of them given twice. -/
theorem standard_fixpoint_irreducible_of_exclusive_or :
    ∃ clauses r, [[2, 1], [-1, -2], [1, 2]].mapM Clause.ofInts = .ok clauses ∧
      (∀ c ∈ clauses, ∀ l ∈ c, l.var.id ≤ (Assignment.blank 2).numVars) ∧
      Pass.runToFixpoint .standard ⟨clauses, .blank 2⟩ = .ok r ∧
      [[-2, -1], [1, 2]].mapM Clause.ofInts = .ok r.clauses ∧ r.Irreducible ∧
      (∃ w, Watches.ofClauses r.clauses 2 r.assignment = .ok w) ∧
      .falseBeforeSearch ∉
        (solve {} .never (.ofParts 2 clauses) (.empty (some .trace))).log.records := by
  obtain ⟨clauses, sorted, hrows, hsorted, hrange, halike, hirreducible⟩ :
      ∃ clauses sorted, [[2, 1], [-1, -2], [1, 2]].mapM Clause.ofInts = .ok clauses ∧
        [[-2, -1], [1, 2]].mapM Clause.ofInts = .ok sorted ∧
        (∀ c ∈ clauses, ∀ l ∈ c, l.var.id ≤ (Assignment.blank 2).numVars) ∧
        Alike clauses sorted ∧ Reduct.Irreducible ⟨sorted, .blank 2⟩ :=
    ⟨_, _, rfl, rfl, by decide, by constructor <;> decide, by constructor <;> decide⟩
  have hmax : (Assignment.blank 2).numVars ≤ Variable.maxId := by decide
  have hcovered : Reduct.Covered ⟨clauses, .blank 2⟩ := hrange
  have hcoincide := Pass.coincide_runToFixpoint hmax hcovered hmax
    (halike.backward.covered hcovered)
    (Pass.coincide_canonical [.unit, .reduce, .pure, .reduce, .tautology] hmax hcovered halike)
  have hfixpoint : Pass.runToFixpoint .standard ⟨clauses, .blank 2⟩ = .ok ⟨sorted, .blank 2⟩ := by
    apply Pass.Coincide.eq_ok
    rw [← hirreducible.runToFixpoint_standard]
    exact hcoincide
  obtain ⟨hreduced, hsolved⟩ := standard_fixpoint_irreducible
  obtain ⟨hnormal, _, _, hindex⟩ := hreduced clauses (.blank 2) _ hrange hfixpoint
  exact ⟨clauses, ⟨sorted, .blank 2⟩, hrows, hrange, hfixpoint, hsorted, hnormal, hindex hmax,
    hsolved {} .never _ _ (by simp [Log.empty])⟩

end Solver

end Clausal
