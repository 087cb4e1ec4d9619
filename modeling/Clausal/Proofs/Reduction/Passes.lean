import Clausal.Proofs.NormalForm
import Clausal.Proofs.Valuation

namespace Clausal

namespace Valuation

/-- The canonical form of a clause list is satisfied by the same valuations. -/
theorem satisfies_simplify {v : Valuation} {clauses : List Clause} :
    v.Satisfies (simplify clauses) ↔ v.Satisfies clauses :=
  forall_mem_simplify

/-- A tautology is true under every valuation. -/
theorem makes_of_isTautology (v : Valuation) {c : Clause} (h : c.isTautology = true) :
    ∃ l ∈ c, v.Makes l := by
  simp only [Clause.isTautology, List.any_eq_true, List.contains_iff_mem] at h
  obtain ⟨l, hl, hnegate⟩ := h
  by_cases hmakes : v.Makes l
  · exact ⟨l, hl, hmakes⟩
  · exact ⟨l.negate, hnegate, makes_negate.mpr hmakes⟩

/-- Dropping tautologies changes nothing for any valuation. -/
theorem satisfies_filter_tautology {v : Valuation} {clauses : List Clause} :
    v.Satisfies (clauses.filter fun c => !c.isTautology) ↔ v.Satisfies clauses := by
  constructor
  · intro h c hc
    by_cases htautology : c.isTautology = true
    · exact v.makes_of_isTautology htautology
    · exact h c (List.mem_filter.mpr ⟨hc, by simpa using htautology⟩)
  · intro h c hc
    exact h c (List.mem_filter.mp hc).1

/-- Under a valuation that agrees with the assignment, removing what the
    assignment decides does not change what is satisfied. -/
theorem satisfies_reduceClauses {v : Valuation} {a : Assignment} {clauses : List Clause}
    (hv : v.Extends a) : v.Satisfies (Pass.reduceClauses clauses a) ↔ v.Satisfies clauses := by
  constructor
  · intro h c hc
    by_cases hsatisfied : a.satisfies c = true
    · simp only [Assignment.satisfies, List.any_eq_true, beq_iff_eq] at hsatisfied
      obtain ⟨l, hl, hvalue⟩ := hsatisfied
      exact ⟨l, hl, hv.makes hvalue⟩
    · obtain ⟨l, hl, hmakes⟩ := h (c.filter fun l => !a.falsifies l)
        (List.mem_filterMap.mpr ⟨c, hc, by rw [Pass.reduceClause, if_neg hsatisfied]⟩)
      exact ⟨l, (List.mem_filter.mp hl).1, hmakes⟩
  · intro h c' hc'
    obtain ⟨c, hc, hreduced⟩ := List.mem_filterMap.mp hc'
    unfold Pass.reduceClause at hreduced
    split at hreduced
    · cases hreduced
    · cases hreduced
      obtain ⟨l, hl, hmakes⟩ := h c hc
      refine ⟨l, List.mem_filter.mpr ⟨hl, ?_⟩, hmakes⟩
      by_cases hfalse : a.falsifies l = true
      · exact absurd hmakes (hv.not_makes hfalse)
      · simpa using hfalse

end Valuation

namespace Pass

/-- What the visit of one clause for units ends with: values that the clause
    forces, or a clause that is false. -/
theorem fixUnit_spec {a : Assignment} {c : Clause} (hrange : ∀ l ∈ c, l.var.id ≤ a.numVars) :
    match fixUnit a c with
    | .ok a' => a'.numVars = a.numVars ∧ a'.Extends a ∧ a.Entails [c] a'
    | .error (.error _) => a.Refutes [c]
    | .error (.fault _) => False := by
  match c with
  | [l] =>
    cases hvalue : a.literalValue? l with
    | none =>
      obtain ⟨a', hassign, hgains, hnew⟩ := Assignment.gains_assign (hrange l (by simp))
        (Assignment.literalValue?_eq_none.mp hvalue)
      have hresult : fixUnit a [l] = .ok a' := by simp [fixUnit, hvalue, hassign]
      rw [hresult]
      refine ⟨hgains.numVars, hgains.extends, fun v hv hsat => ?_⟩
      obtain ⟨m, hm, hmakes⟩ := hsat [l] (by simp)
      rw [List.mem_singleton.mp hm] at hmakes
      exact (Valuation.extends_assign hgains hnew).mpr ⟨hv, hmakes⟩
    | some b =>
      cases b with
      | true =>
        have hresult : fixUnit a [l] = .ok a := by simp [fixUnit, hvalue]
        rw [hresult]
        exact ⟨rfl, Assignment.Extends.refl a, Assignment.Entails.refl a _⟩
      | false =>
        have hresult : fixUnit a [l] = .error (.error ⟨.unit l, a⟩) := by simp [fixUnit, hvalue]
        rw [hresult]
        apply Assignment.refutes_of_falsified (List.mem_singleton.mpr rfl)
        intro m hm
        rw [List.mem_singleton.mp hm]
        simp [Assignment.falsifies, hvalue]
  | [] => exact ⟨rfl, Assignment.Extends.refl a, Assignment.Entails.refl a _⟩
  | _ :: _ :: _ => exact ⟨rfl, Assignment.Extends.refl a, Assignment.Entails.refl a _⟩

/-- Fixing units only gives values that the clauses entail, and a contradiction is one. -/
theorem fixUnits_spec {a : Assignment} {clauses : List Clause}
    (hrange : ∀ c ∈ clauses, ∀ l ∈ c, l.var.id ≤ a.numVars) :
    match fixUnits clauses a with
    | .ok a' => a'.numVars = a.numVars ∧ a'.Extends a ∧ a.Entails clauses a'
    | .error (.error _) => a.Refutes clauses
    | .error (.fault _) => False := by
  induction clauses generalizing a with
  | nil => exact ⟨rfl, Assignment.Extends.refl a, Assignment.Entails.refl a _⟩
  | cons c rest ih =>
    obtain ⟨hfirst, hrest⟩ := List.forall_mem_cons.mp hrange
    have hunit := fixUnit_spec hfirst
    have hhead {v : Valuation} (hsat : v.Satisfies (c :: rest)) : v.Satisfies [c] :=
      List.forall_mem_singleton.mpr (hsat c List.mem_cons_self)
    have htail {v : Valuation} (hsat : v.Satisfies (c :: rest)) : v.Satisfies rest :=
      (List.forall_mem_cons.mp hsat).2
    match hresult : fixUnit a c with
    | .error (.fault _) => simp [hresult] at hunit
    | .error (.error _) =>
      rw [hresult] at hunit
      simp only [fixUnits, hresult]
      exact fun v hv hsat => hunit v hv (hhead hsat)
    | .ok a' =>
      rw [hresult] at hunit
      obtain ⟨hnum, hextends, hentails⟩ := hunit
      have hlast := ih (a := a') (by rwa [hnum])
      simp only [fixUnits, hresult]
      match hresult' : fixUnits rest a' with
      | .error (.fault _) => simp [hresult'] at hlast
      | .error (.error _) =>
        rw [hresult'] at hlast
        exact fun v hv hsat => hlast v (hentails v hv (hhead hsat)) (htail hsat)
      | .ok a'' =>
        rw [hresult'] at hlast
        obtain ⟨hnum', hextends', hentails'⟩ := hlast
        exact ⟨hnum'.trans hnum, hextends'.trans hextends,
          fun v hv hsat => hentails' v (hentails v hv (hhead hsat)) (htail hsat)⟩

end Pass

end Clausal
