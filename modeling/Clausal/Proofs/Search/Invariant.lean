import Clausal.Proofs.Propagation.Settle
import Clausal.Proofs.Search.Rewind
import Clausal.Proofs.Watches.Audit

namespace Clausal

namespace Search

/-- What the search relies on: the tables cover all variables, and every variable
    that occurs and has no value is in the order. -/
structure WellPosed (p : Problem) (fixed : Assignment) : Prop where
  numVars : fixed.numVars ≤ Variable.maxId
  clauses : ∀ c ∈ p.clauses, ∀ l ∈ c, l.var.id ≤ fixed.numVars
  order : ∀ v ∈ p.order.vars, v.id ≤ fixed.numVars
  complete : ∀ c ∈ p.clauses, ∀ l ∈ c, fixed.value? l.var = none → l.var ∈ p.order.vars

/-- What holds at the head of the search loop, where `fixed` is the assignment
    the search started with. A literal that is marked as tried at the current
    position is excluded, and its variable has no value. -/
structure Invariant (p : Problem) (fixed : Assignment) (s : State) : Prop where
  path : Path p fixed s.trail s.position s.assignment
  steps : s.trail.steps.size = p.order.vars.size
  unvisited : ∀ i, s.position ≤ i → i < p.order.vars.size → s.trail.steps[i]? = some none
  tried : s.trail.tried.size = LiteralCode.tableLength fixed.numVars
  marks : ∀ l, s.trail.isTried l = true → ∃ i ≤ s.position, p.order.vars[i]? = some l.var
  excluded : ∀ l : Literal, p.order.vars[s.position]? = some l.var →
    s.trail.isTried l = true →
      s.assignment.value? l.var = none ∧ s.assignment.Excludes p.clauses.toList l
  buckets : s.watches.buckets.size = LiteralCode.tableLength fixed.numVars
  watches : s.watches.Valid p.clauses s.assignment

/-- What a round of the search loop is to end with. -/
def Transition.Correct (p : Problem) (fixed : Assignment) : Transition → Prop
  | .moved _ s => Invariant p fixed s
  | .finished .satisfiable s => Invariant p fixed s ∧ s.position = p.order.vars.size
  | .finished .unsatisfiable s => s.assignment = fixed ∧ fixed.Refutes p.clauses.toList
  | .finished .unknown _ => False

variable {p : Problem} {fixed : Assignment} {s : State}

/-- The marks are those of variables in front of the next position, so none of
    them belongs to a variable there. -/
private theorem not_tried_of_marks {t : Trail} {position : Nat} {l : Literal}
    (hmarks : t.isTried l = true → ∃ i ≤ position, p.order.vars[i]? = some l.var)
    (hv : p.order.vars[position + 1]? = some l.var) : t.isTried l ≠ true := by
  intro hl
  obtain ⟨i, hi, hil⟩ := hmarks hl
  exact order_ne (show i ≠ position + 1 by omega) hil hv rfl

/-- Passing over a variable that has a value keeps the invariant. -/
theorem skip_spec (h : Invariant p fixed s) {v : Variable}
    (hv : p.order.vars[s.position]? = some v) (hvalue : (s.assignment.value? v).isSome)
    (huntried : ∀ l : Literal, l.var = v → s.trail.isTried l = false) :
    ∃ result, skip s = .ok result ∧ result.Correct p fixed := by
  obtain ⟨position, assignment, watches, trail, stats⟩ := s
  dsimp only at hv hvalue huntried
  have hposition := (Array.getElem?_eq_some_iff.mp hv).1
  obtain ⟨trail', hrecord, htried, hsize, hsteps⟩ := Trail.record_spec (t := trail)
    (by rw [h.steps]; exact hposition) .skipped
  have hsame (l : Literal) : trail'.isTried l = trail.isTried l := Trail.isTried_congr htried l
  refine ⟨.moved .skip ⟨position + 1, assignment, watches, trail', stats⟩,
    by simp only [skip, hrecord], ⟨?_, hsize.trans h.steps, ?_, by rw [htried]; exact h.tried,
      ?_, ?_, h.buckets, h.watches⟩⟩
  · refine .skipped (h.path.congr (fun i hi => ?_) fun _ _ l _ => hsame l) hv ?_ hvalue ?_
    · rw [hsteps, if_neg (Nat.ne_of_lt hi)]
    · rw [hsteps, if_pos rfl]
    · intro l hl
      rw [hsame, huntried l hl]
  · intro i hle hi
    dsimp only at hle ⊢
    rw [hsteps, if_neg (by omega)]
    exact h.unvisited i (Nat.le_of_succ_le hle) hi
  · intro l hl
    rw [hsame] at hl
    obtain ⟨i, hi, hil⟩ := h.marks l hl
    exact ⟨i, Nat.le_succ_of_le hi, hil⟩
  · intro l hvl hl
    rw [hsame] at hl
    exact absurd hl (not_tried_of_marks (h.marks l) hvl)

/-- Marking a literal at the current position as tried leaves the path to it as
    it is. -/
private theorem Invariant.marked (h : Invariant p fixed s) {l : Literal}
    (hv : p.order.vars[s.position]? = some l.var) {marked : Trail}
    (hmark : s.trail.markTried l = .ok marked) :
    Path p fixed marked s.position s.assignment ∧
      (∀ m, marked.isTried m = true → ∃ i ≤ s.position, p.order.vars[i]? = some m.var) ∧
      (marked.isTried l.negate = true →
        s.assignment.Excludes p.clauses.toList l.negate) := by
  have hmarks := Trail.isTried_setTried hmark
  refine ⟨h.path.congr (fun i _ => by rw [Trail.steps_setTried hmark]) ?_, ?_, ?_⟩
  · intro i hi m hm
    rw [hmarks, if_neg]
    rintro rfl
    exact order_ne (Nat.ne_of_lt hi) hm hv rfl
  · intro m hm
    rw [hmarks] at hm
    by_cases heq : m = l
    · exact ⟨s.position, Nat.le_refl _, by rw [heq]; exact hv⟩
    · rw [if_neg heq] at hm
      exact h.marks m hm
  · intro hm
    rw [hmarks, if_neg (Literal.negate_ne l)] at hm
    exact (h.excluded l.negate (by simpa using hv) hm).2

variable {l : Literal} {marked : Trail} {chosen : Assignment}

/-- A decision that settles is recorded, and the search goes on behind it. -/
private theorem Invariant.decided (h : Invariant p fixed s)
    (hv : p.order.vars[s.position]? = some l.var) (hmark : s.trail.markTried l = .ok marked)
    (hgains : s.assignment.Gains [l.var] chosen) (hchosen : chosen.value? l.var = some l.polarity)
    {watches : Watches} {settled : Assignment} {implications : Array (Nat × Literal)}
    (hcorrect : Propagation.Outcome.Correct p.clauses s.assignment chosen
      (.settled watches settled implications))
    {trail : Trail} (hmarkSize : marked.tried.size = s.trail.tried.size)
    (htried : trail.tried = marked.tried) (hsize : trail.steps.size = marked.steps.size)
    (hsteps : ∀ i, trail.steps[i]? = if i = s.position then
      some (some (.decision l (Propagation.impliedVars implications))) else marked.steps[i]?)
    (stats : Statistics) :
    Invariant p fixed ⟨s.position + 1, settled, watches, trail, stats⟩ := by
  obtain ⟨hvalid, hbuckets, himplied, hentails⟩ := hcorrect
  obtain ⟨hpath, hmarks, hnegate⟩ := h.marked hv hmark
  have hsame (m : Literal) : trail.isTried m = marked.isTried m := Trail.isTried_congr htried m
  refine ⟨?_, ?_, ?_, ?_, ?_, ?_, ?_, hvalid⟩
  · have hdecision : trail.steps[s.position]? =
        some (some (.decision l (Propagation.impliedVars implications))) := by
      rw [hsteps, if_pos rfl]
    refine .decision (hpath.congr (fun i hi => ?_) fun _ _ m _ => hsame m) hv hdecision
      (hgains.trans himplied) (himplied.extends _ _ hchosen) ?_ ?_
    · rw [hsteps, if_neg (Nat.ne_of_lt hi)]
    · intro v hext hmakes hsat
      exact hentails v ((Valuation.extends_assign hgains hchosen).mpr ⟨hext, hmakes⟩) hsat
    · rw [hsame]
      exact hnegate
  · rw [hsize, Trail.steps_setTried hmark]
    exact h.steps
  · intro i hle hi
    dsimp only at hle ⊢
    rw [hsteps, if_neg (by omega), Trail.steps_setTried hmark]
    exact h.unvisited i (Nat.le_of_succ_le hle) hi
  · rw [htried, hmarkSize]
    exact h.tried
  · intro m hm
    rw [hsame] at hm
    obtain ⟨i, hi, him⟩ := hmarks m hm
    exact ⟨i, Nat.le_succ_of_le hi, him⟩
  · intro m hvm hm
    rw [hsame] at hm
    exact absurd hm (not_tried_of_marks (hmarks m) hvm)
  · rw [← h.path.gains.numVars, ← hgains.numVars]
    exact hbuckets

/-- A decision that fails is taken back and its literal is excluded. -/
private theorem Invariant.failed (h : Invariant p fixed s)
    (hv : p.order.vars[s.position]? = some l.var) (hmark : s.trail.markTried l = .ok marked)
    (hmarkSize : marked.tried.size = s.trail.tried.size)
    (hgains : s.assignment.Gains [l.var] chosen) (hchosen : chosen.value? l.var = some l.polarity)
    {watches : Watches} (hvalid : watches.Valid p.clauses s.assignment)
    (hbuckets : watches.buckets.size = LiteralCode.tableLength chosen.numVars)
    (hrefutes : chosen.Refutes p.clauses.toList) (stats : Statistics) :
    Invariant p fixed ⟨s.position, s.assignment, watches, marked, stats⟩ := by
  obtain ⟨hpath, hmarks, hnegate⟩ := h.marked hv hmark
  refine ⟨hpath, ?_, ?_, by rw [hmarkSize]; exact h.tried, hmarks, ?_, ?_, hvalid⟩
  · rw [Trail.steps_setTried hmark]
    exact h.steps
  · intro i hle hi
    rw [Trail.steps_setTried hmark]
    exact h.unvisited i hle hi
  · intro m hvm hm
    dsimp only at hvm hm
    rw [hv] at hvm
    have hvar : m.var = l.var := (Option.some.inj hvm).symm
    refine ⟨by rw [hvar]; exact hgains.fresh _ List.mem_cons_self, ?_⟩
    rcases Literal.eq_or_eq_negate hvar with rfl | rfl
    · intro v hext hsat hmakes
      exact hrefutes v ((Valuation.extends_assign hgains hchosen).mpr ⟨hext, hmakes⟩) hsat
    · exact hnegate hm
  · rw [← h.path.gains.numVars, ← hgains.numVars]
    exact hbuckets

/-- Trying a literal keeps the invariant, and the result does not depend on
    whether the index is checked. -/
theorem attempt_spec (hp : WellPosed p fixed) (h : Invariant p fixed s)
    (hv : p.order.vars[s.position]? = some l.var)
    (hvalue : s.assignment.value? l.var = none) :
    ∃ result, (∀ audit, attempt { p with audit := audit } l s = .ok result) ∧
      result.Correct p fixed := by
  obtain ⟨position, assignment, watches, trail, stats⟩ := s
  dsimp only at hv hvalue
  have hposition := (Array.getElem?_eq_some_iff.mp hv).1
  have hnum : assignment.numVars = fixed.numVars := h.path.gains.numVars
  have hrange : l.var.id ≤ fixed.numVars := hp.order _ (Array.mem_of_getElem? hv)
  obtain ⟨marked, hmark, hmarkSteps, hmarkSize, _⟩ := Trail.markTried_spec (t := trail)
    (l := l) (by rw [h.tried]; exact Literal.code_index_lt hrange)
  obtain ⟨chosen, hassign, hgains, hchosen⟩ :=
    Assignment.gains_assign (by rw [hnum]; exact hrange) hvalue
  obtain ⟨outcome, hpropagate, hcorrect⟩ := Watches.propagate_spec (by rw [hnum]; exact hp.numVars)
    (by rw [hnum]; exact hp.clauses) h.watches (by rw [hnum]; exact h.buckets) hgains hchosen
  dsimp only at hpropagate
  cases outcome with
  | settled watches' settled implications =>
    have haudit (audit : Bool) :
        auditIfAsked { p with audit := audit } watches' settled = .ok () := by
      cases audit with
      | false => rfl
      | true => exact hcorrect.1.audit_eq_ok
    obtain ⟨trail', hrecord, htried, hsize, hsteps⟩ := Trail.record_spec (t := marked)
      (by rw [hmarkSteps, h.steps]; exact hposition)
      (.decision l (Propagation.impliedVars implications))
    refine ⟨.moved (.decide l implications) ⟨position + 1, settled, watches', trail',
      { stats with
        decisions := stats.decisions + 1
        propagations := stats.propagations + implications.size }⟩, fun audit => ?_, ?_⟩
    · simp only [attempt, hmark, hassign, hpropagate, haudit, hrecord]
    · exact h.decided hv hmark hgains hchosen hcorrect hmarkSize htried hsize hsteps _
  | conflict clause watches' back implications =>
    obtain ⟨hvalid, hbuckets, rfl, hrefutes⟩ := hcorrect
    have hback : back.unassign l.var = .ok assignment := by
      have hall := hgains.unassignAll (fun _ => Iff.rfl) (by rw [hnum]; exact hp.numVars)
      simpa [Assignment.unassignAll] using hall
    refine ⟨.moved (.fail l implications clause) ⟨position, assignment, watches', marked,
      { stats with
        decisions := stats.decisions + 1
        conflicts := stats.conflicts + 1 }⟩, fun audit => ?_, ?_⟩
    · simp only [attempt, hmark, hassign, hpropagate, hback]
    · exact h.failed hv hmark hmarkSize hgains hchosen hvalid hbuckets hrefutes _

end Search

end Clausal
