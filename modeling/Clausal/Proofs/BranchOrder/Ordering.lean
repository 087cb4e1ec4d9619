import Clausal.Formula
import Clausal.Proofs.BranchOrder
import Mathlib.Data.List.Sort

namespace Clausal

/-- How often a variable stands in the clauses, in either polarity. -/
def occurrencesIn (clauses : List Clause) (v : Variable) : Nat :=
  clauses.flatten.countP fun l => l.var = v

/-- A variable occurs as often as its two literals together. -/
theorem occurrencesIn_eq (clauses : List Clause) (v : Variable) : occurrencesIn clauses v =
    clauses.flatten.count (v.literal true) + clauses.flatten.count (v.literal false) := by
  unfold occurrencesIn
  induction clauses.flatten with
  | nil => rfl
  | cons l rest ih =>
    have hliteral (b : Bool) : l = v.literal b ↔ l.var = v ∧ l.polarity = b := by
      constructor
      · rintro rfl
        exact ⟨Variable.var_literal v b, Literal.polarity_literal v b⟩
      · rintro ⟨rfl, rfl⟩
        exact (Literal.literal_var l).symm
    rw [List.countP_cons, List.count_cons, List.count_cons, ih]
    by_cases hvar : l.var = v
    · cases hpolarity : l.polarity
      · simp [hliteral, hvar, hpolarity]
        omega
      · simp [hliteral, hvar, hpolarity]
        omega
    · simp [hliteral, hvar]

namespace BranchOrder

section Sorting

/-- A variable goes in front if it occurs more often, or has the smaller number among
    those that occur equally often. -/
theorem precedes_iff {o : Occurrences} {v w : Variable} : precedes o v w = true ↔
    o.total w < o.total v ∨ o.total v = o.total w ∧ v.id ≤ w.id := by
  simp [precedes]

private theorem precedes_trans (o : Occurrences) (u v w : Variable)
    (huv : precedes o u v = true) (hvw : precedes o v w = true) : precedes o u w = true := by
  rw [precedes_iff] at huv hvw ⊢
  omega

private theorem precedes_total (o : Occurrences) (v w : Variable) :
    (precedes o v w || precedes o w v) = true := by
  rw [Bool.or_eq_true, precedes_iff, precedes_iff]
  omega

/-- Variables are arranged as by inserting one after the other. -/
theorem arrange_eq_insertionSort (o : Occurrences) (candidates : List Variable) :
    arrange o candidates = (candidates.filter fun v => decide (0 < o.total v)).insertionSort
      fun v w => precedes o v w = true := by
  have htotal : Std.Total fun v w => precedes o v w = true :=
    ⟨fun v w => Bool.or_eq_true _ _ ▸ precedes_total o v w⟩
  have htrans : IsTrans Variable fun v w => precedes o v w = true := ⟨precedes_trans o⟩
  have hantisymm : Std.Antisymm fun v w => precedes o v w = true := by
    refine ⟨fun v w hvw hwv => Variable.ext ?_⟩
    rw [precedes_iff] at hvw hwv
    omega
  simpa [arrange] using List.mergeSort_eq_insertionSort (fun v w => precedes o v w = true) _

/-- Variables that differ are arranged by the number of their occurrences, the larger
    first, and then by their own number. -/
theorem pairwise_arrange (o : Occurrences) {candidates : List Variable}
    (hnodup : candidates.Nodup) :
    (arrange o candidates).Pairwise fun v w =>
      o.total w < o.total v ∨ o.total v = o.total w ∧ v.id < w.id := by
  have hsorted : (arrange o candidates).Pairwise fun v w => precedes o v w = true := by
    unfold arrange
    exact List.pairwise_mergeSort (precedes_trans o) (precedes_total o) _
  refine (hsorted.and (nodup_arrange o hnodup)).imp ?_
  rintro v w ⟨hprecedes, hne⟩
  have hid : v.id ≠ w.id := fun heq => hne (Variable.ext heq)
  rw [precedes_iff] at hprecedes
  omega

end Sorting

/-- The literal that is tried first occurs less often than its complement, or equally
    often and is the negative one. -/
theorem phases_spec (order : BranchOrder) (v : Variable) :
    ∃ first : Literal, first.var = v ∧ order.phases v = [first, first.negate] ∧
      (order.occurrences.countOf first < order.occurrences.countOf first.negate ∨
        order.occurrences.countOf first = order.occurrences.countOf first.negate ∧
          first.polarity = false) := by
  have hnegate (b : Bool) : (v.literal b).negate = v.literal !b :=
    Literal.ext_var (by simp) (by simp)
  refine ⟨v.literal (order.occurrences.rarerPolarity v), Variable.var_literal _ _, ?_, ?_⟩
  · rw [hnegate]
    rfl
  · rw [hnegate, Literal.polarity_literal]
    by_cases hrarer : order.occurrences.positiveOf v < order.occurrences.negativeOf v
    · left
      simp [Occurrences.rarerPolarity, hrarer, Occurrences.countOf]
    · have hle := Nat.lt_or_eq_of_le (Nat.not_lt.mp hrarer)
      simpa [Occurrences.rarerPolarity, hrarer, Occurrences.countOf] using hle

/-- An order can be made of all clauses over the variables of the assignment. It holds
    every variable that occurs and has no value once, and no others. Those with more
    occurrences come first, and of those with equally many the one with the smaller
    number. The literal that occurs less often is tried first, and the negative one if
    both occur equally often. -/
theorem ofClauses_exact {clauses : List Clause} {a : Assignment}
    (hrange : ∀ c ∈ clauses, ∀ l ∈ c, l.var.id ≤ a.numVars) :
    ∃ order, ofClauses clauses a = .ok order ∧ order.vars.toList.Nodup ∧
      (∀ v, v ∈ order.vars ↔ a.value? v = none ∧ ∃ c ∈ clauses, ∃ l ∈ c, l.var = v) ∧
      (order.vars.toList.Pairwise fun v w =>
        occurrencesIn clauses w < occurrencesIn clauses v ∨
          occurrencesIn clauses v = occurrencesIn clauses w ∧ v.id < w.id) ∧
      ∀ v ∈ order.vars, ∃ first : Literal, first.var = v ∧
        order.phases v = [first, first.negate] ∧
        (clauses.flatten.count first < clauses.flatten.count first.negate ∨
          clauses.flatten.count first = clauses.flatten.count first.negate ∧
            first.polarity = false) := by
  obtain ⟨order, hordered, hvars, hcount⟩ := ofClauses_counted hrange
  obtain ⟨order', hordered', hmem⟩ := ofClauses_spec hrange
  rw [hordered] at hordered'
  cases hordered'
  have htotal (v : Variable) (hv : v ∈ order.vars) :
      order.occurrences.total v = occurrencesIn clauses v := by
    simp [Occurrences.total_eq, occurrencesIn_eq, hcount, ((hmem v).mp hv).1]
  refine ⟨order, hordered, order.nodup, hmem, ?_, ?_⟩
  · have hsorted := pairwise_arrange order.occurrences (Variable.nodup_upTo a.numVars)
    have hlist : arrange order.occurrences (Variable.upTo a.numVars) = order.vars.toList := by
      rw [hvars]
      rfl
    rw [hlist] at hsorted
    refine hsorted.imp_of_mem fun {v w} hv hw h => ?_
    rwa [htotal v (Array.mem_toList_iff.mp hv), htotal w (Array.mem_toList_iff.mp hw)] at h
  · intro v hv
    obtain ⟨first, rfl, hphases, hfirst⟩ := order.phases_spec v
    refine ⟨first, rfl, hphases, ?_⟩
    simpa [hcount, ((hmem _).mp hv).1] using hfirst

/-- Of the three variables that occur twice, two are tried with the negative literal
    first. One variable has a value and one does not occur. -/
theorem ofClauses_exact_of_ties :
    ∃ f order, Formula.ofRows [[3, 1], [-3, 2], [3, -2], [1, 4], [-5], [-5, 4]] = .ok f ∧
      ofClauses f.clauses ⟨#[none, none, none, some true, none, none]⟩ = .ok order ∧
      order.vars.toList.map Variable.id = [3, 1, 2, 5] ∧
      (order.vars.toList.flatMap fun v => (order.phases v).map Literal.value) =
        [-3, 3, -1, 1, -2, 2, 5, -5] ∧
      (order.vars.toList.Pairwise fun v w =>
        occurrencesIn f.clauses w < occurrencesIn f.clauses v ∨
          occurrencesIn f.clauses v = occurrencesIn f.clauses w ∧ v.id < w.id) := by
  obtain ⟨f, hrows, hrange, hvars⟩ :
      ∃ f, Formula.ofRows [[3, 1], [-3, 2], [3, -2], [1, 4], [-5], [-5, 4]] = .ok f ∧
        (∀ c ∈ f.clauses, ∀ l ∈ c, l.var.id ≤ 6) ∧
        ((ofClauses f.clauses ⟨#[none, none, none, some true, none, none]⟩).toOption.map fun order =>
          (order.vars.toList.map Variable.id,
            order.vars.toList.flatMap fun v => (order.phases v).map Literal.value)) =
          some ([3, 1, 2, 5], [-3, 3, -1, 1, -2, 2, 5, -5]) :=
    ⟨_, rfl, by decide, by simp only [ofClauses, arrange_eq_insertionSort]; decide +kernel⟩
  obtain ⟨order, hordered, _, _, hsorted, _⟩ :=
    ofClauses_exact (a := ⟨#[none, none, none, some true, none, none]⟩) hrange
  rw [hordered] at hvars
  obtain ⟨hids, hphases⟩ := Prod.mk.inj (Option.some.inj hvars)
  exact ⟨f, order, hrows, hordered, hids, hphases, hsorted⟩

end BranchOrder

end Clausal
