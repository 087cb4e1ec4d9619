import Clausal.Proofs.Formula
import Clausal.Proofs.Propagation.Settle

namespace Clausal

namespace Assignment

/-- The values an assignment gains are those in which it differs. -/
theorem Gains.value?_ne_iff {a a' : Assignment} {vs : List Variable} (h : a.Gains vs a')
    (v : Variable) : a'.value? v ≠ a.value? v ↔ v ∈ vs := by
  constructor
  · intro hne
    exact Decidable.byContradiction fun hv => hne (h.kept v hv)
  · intro hv heq
    have hsome := h.given v hv
    rw [heq, h.fresh v hv] at hsome
    cases hsome

end Assignment

namespace Watches

variable {w w' : Watches} {clauses : Array Clause} {base a a' : Assignment} {l : Literal}
  {implications : Array (Nat × Literal)}

/-- If the propagation of a decision settles, then it has given values to the implied
    variables and to no others. Each is implied once and had no value before, every
    valuation that satisfies the clauses under the decision agrees with the new
    values, and every clause is watched once by a literal of its own that is not
    false. -/
theorem propagate_settled (hvalid : w.Valid clauses base) (hopen : base.value? l.var = none)
    (hassign : base.assign l = .ok a)
    (hsettled : w.propagate l.negate clauses a = .ok (.settled w' a' implications)) :
    (∀ v, a'.value? v ≠ a.value? v ↔ v ∈ Propagation.impliedVars implications) ∧
      (Propagation.impliedVars implications).Nodup ∧
      (∀ v ∈ Propagation.impliedVars implications, a.value? v = none) ∧
      (∀ v : Valuation, v.Extends a → v.Satisfies clauses.toList → v.Extends a') ∧
      w'.Valid clauses a' := by
  obtain ⟨hgains, hvalue⟩ := Assignment.gains_of_assign hassign hopen
  obtain ⟨hvalid', himplied, hentails⟩ := propagate_sound hvalid hgains hvalue hsettled
  exact ⟨himplied.value?_ne_iff, himplied.nodup, himplied.fresh, hentails, hvalid'⟩

/-- One implication leads to the next, and a literal that a clause repeats is not
    taken for two. -/
theorem propagate_settled_of_chain :
    ∃ f w a w' a' implications, ∃ l : Literal, l.value = -1 ∧
      Formula.ofRows [[1, 2, 2], [-2, 3, -2], [4, -4]] = .ok f ∧
      Watches.ofClauses f.clauses 4 (.blank 4) = .ok w ∧ (Assignment.blank 4).assign l = .ok a ∧
      w.propagate l.negate f.clauses.toArray a = .ok (.settled w' a' implications) ∧
      (Propagation.impliedVars implications).map Variable.id = [2, 3] ∧
      (∀ v, a'.value? v ≠ a.value? v ↔ v ∈ Propagation.impliedVars implications) ∧
      w'.Valid f.clauses.toArray a' := by
  obtain ⟨f, w, a, w', a', implications, hrows, hrange, hwatches, hassign, hsettled, hvars⟩ :
      ∃ f w a w' a' implications,
        Formula.ofRows [[1, 2, 2], [-2, 3, -2], [4, -4]] = .ok f ∧
        (∀ c ∈ f.clauses, ∀ l ∈ c, l.var.id ≤ 4) ∧
        Watches.ofClauses f.clauses 4 (.blank 4) = .ok w ∧
        (Assignment.blank 4).assign ⟨-1, by decide, by decide⟩ = .ok a ∧
        w.propagate ⟨1, by decide, by decide⟩ f.clauses.toArray a =
          .ok (.settled w' a' implications) ∧
        (Propagation.impliedVars implications).map Variable.id = [2, 3] :=
    ⟨_, ⟨#[#[], #[], #[0], #[], #[], #[1], #[], #[], #[2], #[]]⟩,
      ⟨#[some false, none, none, none]⟩,
      ⟨#[#[], #[], #[], #[], #[0], #[], #[1], #[], #[2], #[]]⟩,
      ⟨#[some false, some true, some true, none]⟩,
      #[(0, ⟨2, by decide, by decide⟩), (1, ⟨3, by decide, by decide⟩)],
      rfl, by decide, rfl, rfl, by with_unfolding_all rfl, rfl⟩
  have hindex := ofClauses_spec (a := .blank 4) (by decide) hrange
  rw [hwatches] at hindex
  obtain ⟨hdiffers, _, _, _, hvalid⟩ :=
    propagate_settled hindex.1 (Assignment.value?_blank 4 _) hassign hsettled
  exact ⟨f, w, a, w', a', implications, _, rfl, hrows, hwatches, hassign, hsettled, hvars, hdiffers,
    hvalid⟩

/-- If the propagation of a decision meets a conflict, then it leaves no trace: every
    variable has the value it had, and once the decision is taken back as well, all
    is as before it and every clause is watched once by a literal of its own that is
    not false. No valuation satisfies the clauses under the decision. -/
theorem propagate_conflict {clause : Nat} (hvalid : w.Valid clauses base)
    (hopen : base.value? l.var = none) (hassign : base.assign l = .ok a)
    (hconflict : w.propagate l.negate clauses a = .ok (.conflict clause w' a' implications)) :
    (∀ v, a'.value? v = a.value? v) ∧ w'.Valid clauses base ∧
      (∃ back, a'.unassign l.var = .ok back ∧ (∀ v, back.value? v = base.value? v) ∧
        w'.Valid clauses back) ∧
      ¬ ∃ v : Valuation, v.Extends a ∧ v.Satisfies clauses.toList := by
  obtain ⟨hgains, hvalue⟩ := Assignment.gains_of_assign hassign hopen
  obtain ⟨hvalid', hnum, hvalues, hrefutes⟩ := propagate_sound hvalid hgains hvalue hconflict
  have hrange : l.var.id ≤ a'.numVars := by
    rw [hnum]
    exact hgains.id_le List.mem_cons_self
  obtain ⟨back, hback, _, hbackValue⟩ := Assignment.unassign_spec hrange
  have hsame (v : Variable) : back.value? v = base.value? v := by
    rw [hbackValue]
    by_cases hv : v = l.var
    · rw [if_pos hv, hv, hopen]
    · rw [if_neg hv, hvalues, hgains.kept v (by simpa using hv)]
  refine ⟨hvalues, hvalid', ⟨back, hback, hsame, hvalid'.of_extends fun v b hv => ?_⟩, ?_⟩
  · rwa [hsame] at hv
  · rintro ⟨v, hextends, hsat⟩
    exact hrefutes v hextends hsat

/-- The conflict is found behind two implications in the middle of a bucket, where
    one clause has been moved and another has not been visited. -/
theorem propagate_conflict_of_fork :
    ∃ f w a w' a' implications, ∃ l : Literal, l.value = -1 ∧
      Formula.ofRows [[1, 2], [1, 3], [-2, 4, 5], [-2, -3], [-2, 4]] = .ok f ∧
      Watches.ofClauses f.clauses 5 (.blank 5) = .ok w ∧ (Assignment.blank 5).assign l = .ok a ∧
      w.propagate l.negate f.clauses.toArray a = .ok (.conflict 3 w' a' implications) ∧
      implications.size = 2 ∧ (∀ v, a'.value? v = a.value? v) ∧
      w'.Valid f.clauses.toArray (.blank 5) ∧
      ¬ ∃ v : Valuation, v.Extends a ∧ v.Satisfies f.clauses := by
  obtain ⟨f, w, a, w', a', implications, hrows, hrange, hwatches, hassign, hconflict, hsize⟩ :
      ∃ f w a w' a' implications,
        Formula.ofRows [[1, 2], [1, 3], [-2, 4, 5], [-2, -3], [-2, 4]] = .ok f ∧
        (∀ c ∈ f.clauses, ∀ l ∈ c, l.var.id ≤ 5) ∧
        Watches.ofClauses f.clauses 5 (.blank 5) = .ok w ∧
        (Assignment.blank 5).assign ⟨-1, by decide, by decide⟩ = .ok a ∧
        w.propagate ⟨1, by decide, by decide⟩ f.clauses.toArray a =
          .ok (.conflict 3 w' a' implications) ∧ implications.size = 2 :=
    ⟨_, ⟨#[#[], #[], #[0, 1], #[], #[], #[2, 3, 4], #[], #[], #[], #[], #[], #[]]⟩,
      ⟨#[some false, none, none, none, none]⟩,
      ⟨#[#[], #[], #[], #[], #[0], #[3, 4], #[1], #[], #[2], #[], #[], #[]]⟩,
      ⟨#[some false, none, none, none, none]⟩,
      #[(0, ⟨2, by decide, by decide⟩), (1, ⟨3, by decide, by decide⟩)],
      rfl, by decide, rfl, rfl, by with_unfolding_all rfl, rfl⟩
  have hindex := ofClauses_spec (a := .blank 5) (by decide) hrange
  rw [hwatches] at hindex
  obtain ⟨hvalues, hvalid, _, hnone⟩ :=
    propagate_conflict hindex.1 (Assignment.value?_blank 5 _) hassign hconflict
  exact ⟨f, w, a, w', a', implications, _, rfl, hrows, hwatches, hassign, hconflict, hsize, hvalues,
    hvalid, hnone⟩

end Watches

end Clausal
