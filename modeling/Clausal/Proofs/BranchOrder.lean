import Clausal.Proofs.Model

namespace Clausal

namespace Occurrences

/-- The number of occurrences of a literal. -/
def countOf (o : Occurrences) (l : Literal) : Nat :=
  if l.polarity then o.positiveOf l.var else o.negativeOf l.var

/-- The total counts the literals of both polarities. -/
theorem total_eq (o : Occurrences) (v : Variable) :
    o.total v = o.countOf (v.literal true) + o.countOf (v.literal false) := by
  simp [total, countOf]

/-- The tables cover the variables 1 to `numVars`. -/
structure Covers (o : Occurrences) (numVars : Nat) : Prop where
  positive : o.positive.size = numVars
  negative : o.negative.size = numVars

private theorem slot_lt {v : Variable} {numVars : Nat} (h : v.id ≤ numVars) :
    v.slot < numVars := by
  have hone := v.one_le
  simp only [Variable.slot]
  omega

private theorem slot_ne {v w : Variable} (h : v ≠ w) : v.slot ≠ w.slot := by
  intro heq
  have hv := v.one_le
  have hw := w.one_le
  simp only [Variable.slot] at heq
  exact h (Variable.ext (by omega))

private theorem getD_modify {table : Array Nat} {v w : Variable} (h : v.slot < table.size) :
    (table.modify v.slot (· + 1)).getD w.slot 0 =
      table.getD w.slot 0 + if w = v then 1 else 0 := by
  by_cases heq : w = v
  · subst heq
    simp [Array.getD, h, Array.getElem_modify]
  · have hne := slot_ne (Ne.symm heq)
    simp only [Array.getD, Array.size_modify, heq, if_false, Nat.add_zero]
    split
    · exact Array.getElem_modify_of_ne hne _ _
    · rfl

/-- Counting a literal of a covered variable adds one to its count and to no other. -/
theorem bump_spec {o : Occurrences} {numVars : Nat} {l : Literal} (ho : o.Covers numVars)
    (h : l.var.id ≤ numVars) :
    ∃ o', o.bump l = .ok o' ∧ o'.Covers numVars ∧
      ∀ m, o'.countOf m = o.countOf m + if m = l then 1 else 0 := by
  obtain ⟨positive, negative⟩ := o
  obtain ⟨hpositive, hnegative⟩ := ho
  dsimp only at hpositive hnegative
  have hslot := slot_lt h
  have hiff (m : Literal) : m = l ↔ m.var = l.var ∧ m.polarity = l.polarity :=
    ⟨fun heq => heq ▸ ⟨rfl, rfl⟩, fun heq => Literal.ext_var heq.1 heq.2⟩
  cases hpolarity : l.polarity with
  | true =>
    have hsize : l.var.slot < positive.size := by omega
    refine ⟨⟨positive.modify l.var.slot (· + 1), negative⟩, by simp [bump, hpolarity, hsize],
      ⟨by simpa using hpositive, hnegative⟩, fun m => ?_⟩
    cases hm : m.polarity
    · simp [countOf, negativeOf, hm, hiff, hpolarity]
    · simp [countOf, positiveOf, hm, hiff, hpolarity, getD_modify hsize]
  | false =>
    have hsize : l.var.slot < negative.size := by omega
    refine ⟨⟨positive, negative.modify l.var.slot (· + 1)⟩, by simp [bump, hpolarity, hsize],
      ⟨hpositive, by simpa using hnegative⟩, fun m => ?_⟩
    cases hm : m.polarity
    · simp [countOf, negativeOf, hm, hiff, hpolarity, getD_modify hsize]
    · simp [countOf, positiveOf, hm, hiff, hpolarity]

/-- Counting a list of literals adds the number of times each stands in it. -/
theorem bumpAll_spec {o : Occurrences} {numVars : Nat} {literals : List Literal}
    (ho : o.Covers numVars) (h : ∀ l ∈ literals, l.var.id ≤ numVars) :
    ∃ o', o.bumpAll literals = .ok o' ∧ o'.Covers numVars ∧
      ∀ m, o'.countOf m = o.countOf m + literals.count m := by
  induction literals generalizing o with
  | nil => exact ⟨o, rfl, ho, fun m => by simp⟩
  | cons l rest ih =>
    obtain ⟨hl, hrest⟩ := List.forall_mem_cons.mp h
    obtain ⟨first, hfirst, hcovers, hcount⟩ := bump_spec ho hl
    obtain ⟨last, hlast, hcovers', hcount'⟩ := ih hcovers hrest
    refine ⟨last, ?_, hcovers', fun m => ?_⟩
    · rw [← hlast]
      simp [bumpAll, hfirst, bind, Except.bind]
    · rw [hcount', hcount, List.count_cons]
      by_cases hm : l = m
      · simp [hm]
        omega
      · simp [hm, Ne.symm hm]

/-- Nothing has been counted at first. -/
theorem countOf_blank (numVars : Nat) (l : Literal) : (blank numVars).countOf l = 0 := by
  simp only [countOf, positiveOf, negativeOf, blank, Array.getD_eq_getD_getElem?,
    Array.getElem?_replicate, ite_self]
  split
  · rfl
  · rfl

end Occurrences

namespace BranchOrder

/-- The order is arranged by the occurrences of the literals without a value. -/
theorem ofClauses_counted {clauses : List Clause} {a : Assignment}
    (hrange : ∀ c ∈ clauses, ∀ l ∈ c, l.var.id ≤ a.numVars) :
    ∃ order, ofClauses clauses a = .ok order ∧
      order.vars = (arrange order.occurrences a.declared).toArray ∧
      ∀ l, order.occurrences.countOf l =
        if a.value? l.var = none then clauses.flatten.count l else 0 := by
  have hblank : (Occurrences.blank a.numVars).Covers a.numVars :=
    ⟨by simp [Occurrences.blank], by simp [Occurrences.blank]⟩
  have hcovered : ∀ l ∈ clauses.flatten.filter (fun l => (a.literalValue? l).isNone),
      l.var.id ≤ a.numVars := by
    intro l hl
    obtain ⟨c, hc, hlc⟩ := List.mem_flatten.mp (List.mem_filter.mp hl).1
    exact hrange c hc l hlc
  obtain ⟨o, hbump, _, hcount⟩ := Occurrences.bumpAll_spec hblank hcovered
  refine ⟨⟨(arrange o a.declared).toArray, nodup_arrange o (Variable.nodup_upTo a.numVars), o⟩,
    by simp only [ofClauses, hbump]; rfl, rfl, fun l => ?_⟩
  rw [hcount, Occurrences.countOf_blank, Nat.zero_add]
  by_cases hnone : a.value? l.var = none
  · rw [if_pos hnone, List.count_filter]
    simpa using Assignment.literalValue?_eq_none.mpr hnone
  · rw [if_neg hnone, List.count_eq_zero]
    intro hmem
    have hvalue := Option.isNone_iff_eq_none.mp (List.mem_filter.mp hmem).2
    exact hnone (Assignment.literalValue?_eq_none.mp hvalue)

/-- The order holds exactly the variables that occur and have no value. -/
theorem ofClauses_spec {clauses : List Clause} {a : Assignment}
    (hrange : ∀ c ∈ clauses, ∀ l ∈ c, l.var.id ≤ a.numVars) :
    ∃ order, ofClauses clauses a = .ok order ∧
      ∀ v, v ∈ order.vars ↔ a.value? v = none ∧ ∃ c ∈ clauses, ∃ l ∈ c, l.var = v := by
  obtain ⟨order, hordered, hvars, hcount⟩ := ofClauses_counted hrange
  refine ⟨order, hordered, fun v => ?_⟩
  have htotal : 0 < order.occurrences.total v ↔
      a.value? v = none ∧ ∃ b, v.literal b ∈ clauses.flatten := by
    simp only [Occurrences.total_eq, hcount, Variable.var_literal]
    by_cases hnone : a.value? v = none
    · simp only [hnone, if_true, true_and, Bool.exists_bool, ← List.count_pos_iff]
      omega
    · simp [hnone]
  simp only [hvars, arrange, List.mem_toArray, List.mem_mergeSort, List.mem_filter,
    decide_eq_true_eq, htotal, List.mem_flatten, Assignment.declared, Variable.mem_upTo]
  constructor
  · rintro ⟨_, hnone, b, c, hc, hl⟩
    exact ⟨hnone, c, hc, _, hl, Variable.var_literal v b⟩
  · rintro ⟨hnone, c, hc, l, hl, rfl⟩
    exact ⟨hrange c hc l hl, hnone, l.polarity, c, hc, by simpa using hl⟩

end BranchOrder

end Clausal
