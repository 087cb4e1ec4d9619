import Clausal.Proofs.Search.Step
import Clausal.Search.Run

namespace Clausal

/-- Nothing has been tried on a blank trail. -/
theorem Trail.isTried_blank (numVars positions : Nat) (l : Literal) :
    (Trail.blank numVars positions).isTried l = false := by
  simp [Trail.isTried, Trail.blank]

namespace Search

/-- The states at the head of the loop in a search that starts with `origin`. -/
inductive Visits (p : Problem) (origin : State) : State → Prop
  | start : Visits p origin origin
  | next {s s' : State} {move : Move} (hvisits : Visits p origin s)
      (hstep : step p s = .ok (.moved move s')) : Visits p origin s'

/-- What the verdict of a search says about its last state: all positions are
    used up, or the search has shown that there is nothing to find and is back at
    the assignment it started with, or it was told to give up. -/
def Ends (p : Problem) (fixed : Assignment) (fires : Nat → Bool) : Verdict → State → Prop
  | .satisfiable, s => Invariant p fixed s ∧ s.position = p.order.vars.size
  | .unsatisfiable, s => s.assignment = fixed ∧ fixed.Refutes p.clauses.toList
  | .unknown, s => Invariant p fixed s ∧ ∃ round, fires round = true

variable {p : Problem} {fixed : Assignment} {s : State}

/-- The invariant holds in front of the first decision. -/
theorem invariant_start {w : Watches} (hbuckets : w.buckets.size =
    LiteralCode.tableLength fixed.numVars) (hvalid : w.Valid p.clauses fixed) (count : Nat) :
    Invariant p fixed (start p fixed.numVars fixed w count) := by
  refine ⟨.start, ?_, ?_, ?_, ?_, ?_, hbuckets, hvalid⟩
  · simp [start, Trail.blank, BranchOrder.size]
  · intro i _ hi
    simp [start, Trail.blank, BranchOrder.size, hi]
  · simp [start, Trail.blank]
  · intro l hl
    rw [start, Trail.isTried_blank] at hl
    cases hl
  · intro l _ hl
    rw [start, Trail.isTried_blank] at hl
    cases hl

/-- The invariant holds at the head of every round that a search comes to. -/
theorem Visits.invariant {origin : State} (hp : WellPosed p fixed)
    (h : Invariant p fixed origin) (hvisits : Visits p origin s) : Invariant p fixed s := by
  induction hvisits with
  | start => exact h
  | next _ hstep ih =>
    obtain ⟨result, hresult, hcorrect⟩ := step_spec hp ih
    obtain rfl := Except.ok.inj (hstep.symm.trans (hresult p.audit))
    exact hcorrect

/-- When the positions are used up, every variable of a clause has a value, so
    the literal that watches the clause is true. -/
theorem Invariant.satisfies (hp : WellPosed p fixed) (h : Invariant p fixed s)
    (hend : s.position = p.order.vars.size) :
    s.assignment.valuation.Satisfies p.clauses.toList := by
  intro c hc
  obtain ⟨l, hl, hlive⟩ := h.watches.exists_live (Array.mem_toList_iff.mp hc)
  have hsome : (s.assignment.value? l.var).isSome := by
    cases hfixed : fixed.value? l.var with
    | some b => simp [h.path.gains.extends _ _ hfixed]
    | none =>
      have hmem := hp.complete c (Array.mem_toList_iff.mp hc) l hl hfixed
      obtain ⟨i, hi, hget⟩ := Array.mem_iff_getElem.mp hmem
      apply h.path.isSome_value? (hend ▸ hi)
      rw [Array.getElem?_eq_getElem hi, hget]
  obtain ⟨b, hb⟩ := Option.isSome_iff_exists.mp hsome
  refine ⟨l, hl, ?_⟩
  have hne : b ≠ !l.polarity := by
    rintro rfl
    rw [Assignment.falsifies_iff.mpr hb] at hlive
    cases hlive
  rw [Valuation.Makes, s.assignment.extends_valuation _ _ hb]
  cases b <;> cases hpolarity : l.polarity <;> simp_all

/-- The first round of a search and the rest of it. -/
theorem run_eq (fires : Nat → Bool) (p : Problem) (rounds : Nat) (s : State) (log : Log) :
    Id.run (run (fun round => pure (fires round)) p rounds s log) =
      if fires rounds then
        ⟨.ok (.unknown, s), s.stats, log.emit (.interrupted s.position p.order.size)⟩
      else
        match step p s with
        | .error halt => ⟨.error halt.failure, halt.stats, log.emitAll halt.events⟩
        | .ok (.finished verdict s') => ⟨.ok (verdict, s'), s'.stats, log⟩
        | .ok (.moved move s') =>
          Id.run (run (fun round => pure (fires round)) p (rounds + 1) s'
            (log.emitAll (move.events s.position))) := by
  rw [run]
  simp only [pure_bind, Id.run]
  cases fires rounds with
  | true => rfl
  | false =>
    simp only [Bool.false_eq_true, if_false]
    split
    next hstep => rw [hstep]; rfl
    next hstep => rw [hstep]; rfl
    next hstep => rw [hstep]

/-- A search always ends with a verdict that says what it is to say, and whether
    the index is checked makes no difference to it. -/
theorem run_spec {s : State} (fires : Nat → Bool) (hp : WellPosed p fixed)
    (h : Invariant p fixed s) (rounds : Nat) (log : Log) :
    ∃ ending, (∀ audit, Id.run (run (fun round => pure (fires round))
        { p with audit := audit } rounds s log) = ending) ∧
      ∃ verdict s', ending.result = .ok (verdict, s') ∧ Ends p fixed fires verdict s' := by
  cases hfires : fires rounds with
  | true =>
    refine ⟨⟨.ok (.unknown, s), s.stats, log.emit (.interrupted s.position p.order.size)⟩,
      fun _ => ?_, .unknown, s, rfl, h, rounds, hfires⟩
    rw [run_eq, if_pos hfires]
  | false =>
    obtain ⟨result, hstep, hcorrect⟩ := step_spec hp h
    simp only [run_eq fires _ rounds, hfires, hstep, Bool.false_eq_true, if_false]
    match result, hstep, hcorrect with
    | .moved move s', hstep, hcorrect =>
      have hless : remaining p s' < remaining p s := remaining_step (hstep p.audit)
      exact run_spec fires hp hcorrect (rounds + 1) (log.emitAll (move.events s.position))
    | .finished .satisfiable s', _, hcorrect =>
      exact ⟨_, fun _ => rfl, .satisfiable, s', rfl, hcorrect⟩
    | .finished .unsatisfiable s', _, hcorrect =>
      exact ⟨_, fun _ => rfl, .unsatisfiable, s', rfl, hcorrect⟩
    | .finished .unknown _, _, hcorrect => exact hcorrect.elim
termination_by remaining p s

/-- A search that goes on from the next state comes to what is visited from there. -/
theorem Visits.head {origin next : State} {move : Move}
    (hstep : step p origin = .ok (.moved move next)) (hvisits : Visits p next s) :
    Visits p origin s := by
  induction hvisits with
  | start => exact .next .start hstep
  | next _ hlast ih => exact .next ih hlast

/-- A search that ends with a verdict gives it in a round that it has come to, or has
    been told to give up in front of one. -/
theorem exists_last_visit {s s' : State} {fires : Nat → Bool} {rounds : Nat} {log : Log}
    {verdict : Verdict}
    (h : (Id.run (run (fun round => pure (fires round)) p rounds s log)).result =
      .ok (verdict, s')) :
    (Id.run (run (fun round => pure (fires round)) p rounds s log)).stats = s'.stats ∧
      ∃ last, Visits p s last ∧
        (step p last = .ok (.finished verdict s') ∨ verdict = .unknown ∧ s' = last) := by
  rw [run_eq] at h ⊢
  cases hfires : fires rounds with
  | true =>
    simp only [hfires, if_true] at h ⊢
    cases h
    exact ⟨rfl, s, .start, .inr ⟨rfl, rfl⟩⟩
  | false =>
    simp only [hfires, Bool.false_eq_true, if_false] at h ⊢
    match hstep : step p s with
    | .error halt =>
      rw [hstep] at h
      cases h
    | .ok (.finished verdict' s'') =>
      rw [hstep] at h
      cases h
      exact ⟨rfl, s, .start, .inl hstep⟩
    | .ok (.moved move s'') =>
      rw [hstep] at h
      have hless : remaining p s'' < remaining p s := remaining_step hstep
      obtain ⟨hstats, last, hvisits, hlast⟩ := exists_last_visit h
      exact ⟨hstats, last, hvisits.head hstep, hlast⟩
termination_by remaining p s

end Search

end Clausal
