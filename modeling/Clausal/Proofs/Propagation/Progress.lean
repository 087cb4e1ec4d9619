import Clausal.Proofs.Propagation.Moves
import Clausal.Proofs.Watches.Valid

namespace Clausal

namespace Propagation

/-- What holds all through a propagation. Here `base` is the assignment in front
    of the decision and `a` the one that the decision led to. A false literal that
    still watches a clause is pending, and pending literals belong to variables
    that have no value in `base`. -/
structure Progress (clauses : Array Clause) (base a : Assignment) (p : Propagation) : Prop where
  own : ∀ entry ∈ p.watches.entries, ∃ c, clauses[entry.2]? = some c ∧ entry.1.literal ∈ c
  live : ∀ entry ∈ p.watches.entries,
    p.assignment.falsifies entry.1.literal = false ∨ entry.1.literal ∈ p.pending
  pending : ∀ l ∈ p.pending, base.value? l.var = none
  gains : a.Gains (impliedVars p.implications) p.assignment
  entails : a.Entails clauses.toList p.assignment

variable {clauses : Array Clause} {base a : Assignment}

private theorem falsifies_eq_false {a : Assignment} {l : Literal}
    (hvalue : a.value? l.var = some l.polarity) : a.falsifies l = false := by
  rw [← Bool.not_eq_true, Assignment.falsifies_iff, hvalue]
  cases l.polarity <;> simp

/-- When a literal becomes true, its complement is the only watch that can become
    false. -/
private theorem falsifies_of_gains {a a' : Assignment} {l m : Literal}
    (hgains : a.Gains [l.var] a') (hvalue : a'.value? l.var = some l.polarity)
    (hm : a.falsifies m = false) : a'.falsifies m = false ∨ m = l.negate := by
  by_cases hvar : m.var = l.var
  · rcases Literal.eq_or_eq_negate hvar with rfl | rfl
    · exact Or.inl (falsifies_eq_false hvalue)
    · exact Or.inr rfl
  · left
    rw [← Bool.not_eq_true, Assignment.falsifies_iff] at hm ⊢
    rwa [hgains.kept _ (by simpa using hvar)]

/-- Before the first bucket is visited, only the complement of the decision can
    be a false watch. -/
theorem progress_start {w : Watches} {l : Literal} (hvalid : w.Valid clauses base)
    (hgains : base.Gains [l.var] a) (hvalue : a.value? l.var = some l.polarity) :
    Progress clauses base a ⟨w, a, #[], [l.negate]⟩ := by
  refine ⟨hvalid.own, ?_, ?_, Assignment.Gains.refl a, Assignment.Entails.refl a _⟩
  · intro entry hentry
    exact (falsifies_of_gains hgains hvalue (hvalid.live entry hentry)).imp_right
      List.mem_singleton.mpr
  · intro m hm
    rw [List.mem_singleton.mp hm, Literal.var_negate]
    exact hgains.fresh _ List.mem_cons_self

private theorem forall_mem_entries {w w' : Watches} {l : Literal} {clause : Nat}
    {motive : LiteralCode × Nat → Prop}
    (hentries : w'.entries.Perm ((l.code, clause) :: w.entries))
    (hnew : motive (l.code, clause)) (hold : ∀ entry ∈ w.entries, motive entry) :
    ∀ entry ∈ w'.entries, motive entry := by
  intro entry hentry
  rcases List.mem_cons.mp (hentries.mem_iff.mp hentry) with rfl | hentry
  · exact hnew
  · exact hold entry hentry

/-- If all literals of a clause but one are false, then that one is true in every
    satisfying valuation. -/
private theorem makes_of_others {c : Clause} (hc : c ∈ clauses) {l : Literal} {v : Valuation}
    (hothers : ∀ m ∈ c, m = l ∨ a.falsifies m = true) (hv : v.Extends a)
    (hsat : v.Satisfies clauses.toList) : v.Makes l := by
  obtain ⟨m, hm, hmakes⟩ := hsat c (Array.mem_toList_iff.mpr hc)
  rcases hothers m hm with rfl | hfalse
  · exact hmakes
  · exact absurd hmakes (hv.not_makes hfalse)

/-- A move makes progress. -/
theorem Progress.moved {clause : Nat} {p p' : Propagation} (h : Progress clauses base a p)
    (hbase : a.Extends base) (hmoved : Moved clauses clause p p') :
    Progress clauses base a p' := by
  cases hmoved with
  | live hclause hmem hlive _ hentries =>
    refine ⟨?_, ?_, h.pending, h.gains, h.entails⟩
    · exact forall_mem_entries hentries ⟨_, hclause, by simpa using hmem⟩ h.own
    · exact forall_mem_entries hentries (Or.inl (by simpa using hlive)) h.live
  | @implied c l w a' hclause hmem hothers hgains hvalue _ hentries =>
    have hfresh : base.value? l.var = none := by
      have hnone := hgains.fresh _ List.mem_cons_self
      cases hvalue : base.value? l.var with
      | none => rfl
      | some b =>
        rw [h.gains.extends _ _ (hbase _ _ hvalue)] at hnone
        cases hnone
    refine ⟨?_, ?_, ?_, ?_, ?_⟩
    · exact forall_mem_entries hentries ⟨_, hclause, by simpa using hmem⟩ h.own
    · refine forall_mem_entries hentries (Or.inl ?_) fun entry hentry => ?_
      · rw [Literal.literal_code]
        exact falsifies_eq_false hvalue
      · rcases h.live entry hentry with hlive | hpending
        · exact (falsifies_of_gains hgains hvalue hlive).imp_right
            fun heq => List.mem_cons.mpr (Or.inl heq)
        · exact Or.inr (List.mem_cons_of_mem _ hpending)
    · refine List.forall_mem_cons.mpr ⟨?_, h.pending⟩
      rw [Literal.var_negate]
      exact hfresh
    · have hboth := h.gains.trans hgains
      simpa [impliedVars] using hboth
    · intro v hv hsat
      have hv' := h.entails v hv hsat
      exact (Valuation.extends_assign hgains hvalue).mpr
        ⟨hv', makes_of_others (Array.mem_of_getElem? hclause) hothers hv' hsat⟩

/-- Several moves make progress. -/
theorem Progress.moves {bucket : List Nat} {p p' : Propagation} (h : Progress clauses base a p)
    (hbase : a.Extends base) (hmoves : Moves clauses bucket p p') :
    Progress clauses base a p' := by
  induction hmoves with
  | nil _ => exact h
  | cons hfirst _ ih => exact ih (h.moved hbase hfirst)

/-- When the next pending literal is taken and its bucket is emptied, no watch of
    that literal is left. -/
theorem Progress.pop {w w' : Watches} {current : Assignment}
    {implications : Array (Nat × Literal)} {falsified : Literal} {pending : List Literal}
    {bucket : List Nat}
    (h : Progress clauses base a ⟨w, current, implications, falsified :: pending⟩)
    (hemptied : w.Emptied falsified bucket w') :
    Progress clauses base a ⟨w', current, implications, pending⟩ := by
  have hold : ∀ entry ∈ w'.entries, entry ∈ w.entries := fun entry hentry =>
    hemptied.entries.mem_iff.mpr (List.mem_append_right _ hentry)
  refine ⟨fun entry hentry => h.own entry (hold entry hentry), ?_,
    (List.forall_mem_cons.mp h.pending).2, h.gains, h.entails⟩
  intro entry hentry
  rcases h.live entry (hold entry hentry) with hlive | hpending
  · exact Or.inl hlive
  · refine Or.inr ((List.mem_cons.mp hpending).resolve_left fun heq => ?_)
    apply hemptied.others entry hentry
    rw [← heq, LiteralCode.code_literal]

/-- The clauses of a bucket hold the literal it belongs to. -/
theorem Progress.own_bucket {p : Propagation} {w : Watches} {falsified : Literal}
    {bucket : List Nat} (h : Progress clauses base a p)
    (hemptied : p.watches.Emptied falsified bucket w) {i : Nat} (hi : i ∈ bucket) :
    ∃ c, clauses[i]? = some c ∧ falsified ∈ c := by
  obtain ⟨c, hclause, hown⟩ := h.own (falsified.code, i)
    (hemptied.entries.mem_iff.mpr (List.mem_append_left _ (List.mem_map.mpr ⟨i, hi, rfl⟩)))
  exact ⟨c, hclause, by simpa using hown⟩

end Propagation

end Clausal
