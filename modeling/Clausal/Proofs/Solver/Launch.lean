import Clausal.Proofs.BranchOrder
import Clausal.Proofs.Formula
import Clausal.Proofs.Reduction.Chain
import Clausal.Proofs.Search.Run
import Clausal.Solver

namespace Clausal

namespace Reduct

variable {r : Reduct} {clauses : List Clause} {numVars : Nat}

/-- A reduct that no valuation satisfies comes from clauses that none satisfies,
    if no variable had a value at first. -/
theorem Preserves.not_satisfies (h : Preserves ⟨clauses, .blank numVars⟩ r)
    (hrefutes : r.assignment.Refutes r.clauses) (v : Valuation) : ¬ v.Satisfies clauses := by
  intro hsat
  obtain ⟨w, hw, hwsat⟩ := h.satisfiable ⟨v, v.extends_blank numVars, hsat⟩
  exact hrefutes w hw hwsat

end Reduct

namespace Solver

/-- What the reductions in front of a search are to give. -/
def Prepared.Correct (f : Formula) : Prepared → Prop
  | .contradiction _ => ∀ v : Valuation, ¬ v.Satisfies f.clauses
  | .ready r => Reduct.Preserves ⟨f.clauses, .blank f.numVars⟩ r

/-- The clauses of a well-formed formula are over its variables. -/
theorem covered_blank {f : Formula} (hf : f.WellFormed) :
    Reduct.Covered ⟨f.clauses, .blank f.numVars⟩ := by
  intro c hc l hl
  rw [Assignment.numVars_blank]
  exact hf.range c hc l hl

/-- Preparing a well-formed formula goes through and keeps what has to be kept. -/
theorem prepare_spec {f : Formula} (hf : f.WellFormed) (options : Options) :
    ∃ prepared, prepare options f = .ok prepared ∧ prepared.Correct f := by
  simp only [prepare, Assignment.create_eq_ok hf.numVars, bind, Except.bind]
  cases options.preprocess with
  | false => exact ⟨_, rfl, Reduct.Preserves.refl _⟩
  | true =>
    have hcorrect := Pass.correct_runToFixpoint .standard (covered_blank hf)
    cases hrun : Pass.runToFixpoint .standard ⟨f.clauses, .blank f.numVars⟩ with
    | ok r =>
      rw [hrun] at hcorrect
      exact ⟨.ready r, rfl, hcorrect⟩
    | error failure =>
      rw [hrun] at hcorrect
      cases failure with
      | fault reason => exact hcorrect.elim
      | error contradiction =>
        refine ⟨.contradiction contradiction.cause, rfl, fun v hsat => ?_⟩
        exact hcorrect ⟨v, v.extends_blank f.numVars, hsat⟩

/-- What is handed to the search preserves the formula. -/
theorem preserves_of_prepare {options : Options} {f : Formula} {r : Reduct} (hf : f.WellFormed)
    (h : prepare options f = .ok (.ready r)) :
    Reduct.Preserves ⟨f.clauses, .blank f.numVars⟩ r := by
  obtain ⟨prepared, hprepare, hcorrect⟩ := prepare_spec hf options
  obtain rfl := Except.ok.inj (hprepare.symm.trans h)
  exact hcorrect

/-- What is handed to the search is over the variables of the formula. -/
theorem covered_of_prepare {options : Options} {f : Formula} {r : Reduct} (hf : f.WellFormed)
    (h : prepare options f = .ok (.ready r)) :
    r.assignment.numVars = f.numVars ∧ r.Covered := by
  have hpreserves := preserves_of_prepare hf h
  refine ⟨?_, hpreserves.covered (covered_blank hf)⟩
  rw [hpreserves.numVars, Assignment.numVars_blank]

/-- How a solve starts the search: with the clauses and the values that the
    reductions leave, with an index and an order made from these, and with
    nothing tried yet. -/
structure Launches (options : Options) (f : Formula) (p : Search.Problem) (s : Search.State) :
    Prop where
  prepared : prepare options f = .ok (.ready ⟨p.clauses.toList, s.assignment⟩)
  indexed : Watches.ofClauses p.clauses.toList f.numVars s.assignment = .ok s.watches
  ordered : BranchOrder.ofClauses p.clauses.toList s.assignment = .ok p.order
  audited : p.audit = options.audit
  started : s = Search.start p f.numVars s.assignment s.watches s.assignment.fixedCount

variable {options : Options} {f : Formula} {p : Search.Problem} {s : Search.State}

/-- A search that is launched is over the variables of the formula. -/
theorem Launches.numVars (hf : f.WellFormed) (h : Launches options f p s) :
    s.assignment.numVars = f.numVars := (covered_of_prepare hf h.prepared).1

private theorem Launches.covered (hf : f.WellFormed) (h : Launches options f p s) :
    ∀ c ∈ p.clauses.toList, ∀ l ∈ c, l.var.id ≤ s.assignment.numVars :=
  (covered_of_prepare hf h.prepared).2

/-- A search is launched on a problem that is well posed. -/
theorem Launches.wellPosed (hf : f.WellFormed) (h : Launches options f p s) :
    Search.WellPosed p s.assignment := by
  obtain ⟨order, hordered, hmem⟩ := BranchOrder.ofClauses_spec (h.covered hf)
  obtain rfl := Except.ok.inj (hordered.symm.trans h.ordered)
  refine ⟨by rw [h.numVars hf]; exact hf.numVars, ?_, ?_, ?_⟩
  · intro c hc
    exact h.covered hf c (Array.mem_toList_iff.mpr hc)
  · intro v hv
    obtain ⟨_, c, hc, l, hl, rfl⟩ := (hmem v).mp hv
    exact h.covered hf c hc l hl
  · intro c hc l hl hnone
    exact (hmem l.var).mpr ⟨hnone, c, Array.mem_toList_iff.mpr hc, l, hl, rfl⟩

/-- A search is launched in a state that satisfies the invariant. -/
theorem Launches.invariant (hf : f.WellFormed) (h : Launches options f p s) :
    Search.Invariant p s.assignment s := by
  have hindex := Watches.ofClauses_spec hf.numVars
    (by rw [← h.numVars hf]; exact h.covered hf) (a := s.assignment)
  rw [h.indexed] at hindex
  obtain ⟨hvalid, hbuckets⟩ := hindex
  rw [← h.numVars hf] at hbuckets
  have hstart := Search.invariant_start (p := p) hbuckets hvalid s.assignment.fixedCount
  rw [h.numVars hf, ← h.started] at hstart
  exact hstart

/-- Once the index is built, nothing more can keep the search from starting. -/
theorem exists_launches {r : Reduct} {w : Watches} (hf : f.WellFormed)
    (hprepare : prepare options f = .ok (.ready r))
    (hwatches : Watches.ofClauses r.clauses f.numVars r.assignment = .ok w) :
    ∃ order, BranchOrder.ofClauses r.clauses r.assignment = .ok order ∧
      Launches options f ⟨r.clauses.toArray, order, options.audit⟩
        (Search.start ⟨r.clauses.toArray, order, options.audit⟩ f.numVars r.assignment w
          r.assignment.fixedCount) := by
  obtain ⟨order, horder, _⟩ := BranchOrder.ofClauses_spec (covered_of_prepare hf hprepare).2
  exact ⟨order, horder, hprepare, hwatches, horder, rfl, rfl⟩

end Solver

end Clausal
