import Clausal.Proofs.Valuation

namespace Clausal

namespace Assignment

/-- Making literals true one after the other gives each of them its value, as
    long as no two of them are complementary, and changes no other variable. -/
theorem assignAll_spec {a : Assignment} {literals : List Literal}
    (hrange : ∀ l ∈ literals, l.var.id ≤ a.numVars)
    (hpure : ∀ l ∈ literals, l.negate ∉ literals) :
    ∃ a', a.assignAll literals = .ok a' ∧ a'.numVars = a.numVars ∧
      (∀ l ∈ literals, a'.value? l.var = some l.polarity) ∧
      ∀ v, (∀ l ∈ literals, l.var ≠ v) → a'.value? v = a.value? v := by
  induction literals generalizing a with
  | nil => exact ⟨a, rfl, rfl, by simp, fun _ _ => rfl⟩
  | cons l rest ih =>
    obtain ⟨hl, hrest⟩ := List.forall_mem_cons.mp hrange
    obtain ⟨first, hfirst, hnum, hvalue⟩ := assign_spec hl
    obtain ⟨last, hlast, hnum', hgiven, hkept⟩ := ih (a := first) (by rwa [hnum]) fun m hm hneg =>
      hpure m (List.mem_cons_of_mem l hm) (List.mem_cons_of_mem l hneg)
    refine ⟨last, by simpa [assignAll_cons, hfirst] using hlast, hnum'.trans hnum, ?_, ?_⟩
    · intro m hm
      by_cases hmem : m ∈ rest
      · exact hgiven m hmem
      · obtain rfl : m = l := (List.mem_cons.mp hm).resolve_right hmem
        rw [hkept, hvalue, if_pos rfl]
        intro k hk hvar
        rcases Literal.eq_or_eq_negate hvar with rfl | rfl
        · exact hmem hk
        · exact hpure m List.mem_cons_self (List.mem_cons_of_mem m hk)
    · intro v hv
      obtain ⟨hlv, hrestv⟩ := List.forall_mem_cons.mp hv
      rw [hkept v hrestv, hvalue, if_neg (Ne.symm hlv)]

end Assignment

namespace Pass

private theorem mem_collect {a : Assignment} {m : Literal} (c : Clause)
    (set : Std.HashSet Literal) :
    m ∈ c.foldl (fun set l => if (a.literalValue? l).isNone then set.insert l else set) set ↔
      m ∈ set ∨ m ∈ c ∧ a.value? m.var = none := by
  induction c generalizing set with
  | nil => simp
  | cons l rest ih =>
    rw [List.foldl_cons, ih]
    by_cases hvalue : a.literalValue? l = none
    · have hnone := Assignment.literalValue?_eq_none.mp hvalue
      simp only [hvalue, Option.isNone_none, if_true, Std.HashSet.mem_insert, beq_iff_eq,
        List.mem_cons]
      constructor
      · rintro ((rfl | hm) | hm)
        · exact Or.inr ⟨Or.inl rfl, hnone⟩
        · exact Or.inl hm
        · exact Or.inr ⟨Or.inr hm.1, hm.2⟩
      · rintro (hm | ⟨rfl | hm, hnone'⟩)
        · exact Or.inl (Or.inr hm)
        · exact Or.inl (Or.inl rfl)
        · exact Or.inr ⟨hm, hnone'⟩
    · have hsome : a.value? l.var ≠ none := mt Assignment.literalValue?_eq_none.mpr hvalue
      simp only [Option.isNone_iff_eq_none, hvalue, if_false, List.mem_cons]
      constructor
      · rintro (hm | hm)
        · exact Or.inl hm
        · exact Or.inr ⟨Or.inr hm.1, hm.2⟩
      · rintro (hm | ⟨rfl | hm, hnone⟩)
        · exact Or.inl hm
        · exact absurd hnone hsome
        · exact Or.inr ⟨hm, hnone⟩

private theorem mem_collectAll {a : Assignment} {m : Literal} (clauses : List Clause)
    (set : Std.HashSet Literal) :
    m ∈ clauses.foldl (fun set c => c.foldl
        (fun set l => if (a.literalValue? l).isNone then set.insert l else set) set) set ↔
      m ∈ set ∨ (∃ c ∈ clauses, m ∈ c) ∧ a.value? m.var = none := by
  induction clauses generalizing set with
  | nil => simp
  | cons c rest ih =>
    rw [List.foldl_cons, ih, mem_collect]
    simp only [List.mem_cons, exists_eq_or_imp]
    rw [or_and_right, or_assoc]

/-- A literal is pure if it occurs, its variable has no value, and its complement
    does not occur. -/
theorem mem_pureLiterals {clauses : List Clause} {a : Assignment} {l : Literal} :
    l ∈ pureLiterals clauses a ↔
      (∃ c ∈ clauses, l ∈ c) ∧ a.value? l.var = none ∧ ∀ c ∈ clauses, l.negate ∉ c := by
  simp only [pureLiterals, mem_sortDistinct, List.mem_filter, Std.HashSet.mem_toList,
    Bool.not_eq_true', Std.HashSet.contains_eq_false_iff_not_mem, mem_collectAll,
    Std.HashSet.not_mem_empty, false_or, Literal.var_negate]
  constructor
  · rintro ⟨⟨hoccurs, hnone⟩, hnegate⟩
    exact ⟨hoccurs, hnone, fun c hc hl => hnegate ⟨⟨c, hc, hl⟩, hnone⟩⟩
  · rintro ⟨hoccurs, hnone, hnegate⟩
    refine ⟨⟨hoccurs, hnone⟩, ?_⟩
    rintro ⟨⟨c, hc, hl⟩, _⟩
    exact hnegate c hc hl

/-- A literal and its complement are not both pure. -/
theorem negate_notMem_pureLiterals {clauses : List Clause} {a : Assignment} {l : Literal}
    (hl : l ∈ pureLiterals clauses a) : l.negate ∉ pureLiterals clauses a := by
  intro hnegate
  obtain ⟨c, hc, hmem⟩ := (mem_pureLiterals.mp hl).1
  exact (mem_pureLiterals.mp hnegate).2.2 c hc (by simpa using hmem)

/-- The valuation with the pure literals made true. -/
private def purify (pures : List Literal) (v : Valuation) : Valuation := fun x =>
  if x.literal true ∈ pures then true else if x.literal false ∈ pures then false else v x

private theorem purify_makes {pures : List Literal} (v : Valuation) {l : Literal}
    (hl : l ∈ pures) (hnegate : l.negate ∉ pures) : (purify pures v).Makes l := by
  have hother : l.var.literal (!l.polarity) = l.negate :=
    Literal.ext_var (by simp) (by simp)
  have hown := l.literal_var
  unfold Valuation.Makes purify
  cases hpolarity : l.polarity <;> simp_all

private theorem purify_apply {pures : List Literal} (v : Valuation) {x : Variable}
    (h : ∀ l ∈ pures, l.var ≠ x) : purify pures v x = v x := by
  have hmem (b : Bool) : x.literal b ∉ pures := fun hb => h _ hb (Variable.var_literal x b)
  simp [purify, hmem]

/-- Making the pure literals of some clauses true keeps a satisfying valuation
    satisfying: a literal that becomes false on the way does not occur. -/
private theorem purify_satisfies {clauses : List Clause} {a : Assignment} {v : Valuation}
    (hsat : v.Satisfies clauses) :
    (purify (pureLiterals clauses a) v).Satisfies clauses := by
  intro c hc
  obtain ⟨l, hl, hmakes⟩ := hsat c hc
  refine ⟨l, hl, ?_⟩
  by_cases hvar : ∃ m ∈ pureLiterals clauses a, m.var = l.var
  · obtain ⟨m, hm, hvar⟩ := hvar
    rcases Literal.eq_or_eq_negate hvar with rfl | rfl
    · exact purify_makes v hm (negate_notMem_pureLiterals hm)
    · exact absurd (by simpa using hl) ((mem_pureLiterals.mp hm).2.2 c hc)
  · unfold Valuation.Makes
    rw [purify_apply v fun m hm hx => hvar ⟨m, hm, hx⟩]
    exact hmakes

/-- Making the pure literals true changes no other variable. -/
theorem assignAll_pureLiterals_spec {clauses : List Clause} {a : Assignment}
    (hrange : ∀ c ∈ clauses, ∀ l ∈ c, l.var.id ≤ a.numVars) :
    ∃ a', a.assignAll (pureLiterals clauses a) = .ok a' ∧ a'.numVars = a.numVars ∧
      (∀ l ∈ pureLiterals clauses a, a'.value? l.var = some l.polarity) ∧
      ∀ v, (∀ l ∈ pureLiterals clauses a, l.var ≠ v) → a'.value? v = a.value? v := by
  refine Assignment.assignAll_spec (fun l hl => ?_) fun l hl => negate_notMem_pureLiterals hl
  obtain ⟨c, hc, hmem⟩ := (mem_pureLiterals.mp hl).1
  exact hrange c hc l hmem

/-- Making the pure literals true keeps the earlier values and, if there was a
    satisfying valuation, leaves one. -/
theorem assignAll_pureLiterals {clauses : List Clause} {a : Assignment}
    (hrange : ∀ c ∈ clauses, ∀ l ∈ c, l.var.id ≤ a.numVars) :
    ∃ a', a.assignAll (pureLiterals clauses a) = .ok a' ∧ a'.numVars = a.numVars ∧
      a'.Extends a ∧ ((∃ v : Valuation, v.Extends a ∧ v.Satisfies clauses) →
        ∃ v : Valuation, v.Extends a' ∧ v.Satisfies clauses) := by
  obtain ⟨a', hassign, hnum, hgiven, hkept⟩ := assignAll_pureLiterals_spec hrange
  have hextends : a'.Extends a := by
    intro x b hx
    rw [hkept x, hx]
    rintro l hl rfl
    rw [(mem_pureLiterals.mp hl).2.1] at hx
    cases hx
  refine ⟨a', hassign, hnum, hextends, ?_⟩
  rintro ⟨v, hv, hsat⟩
  refine ⟨purify (pureLiterals clauses a) v, ?_, purify_satisfies hsat⟩
  intro x b hx
  by_cases hvar : ∃ l ∈ pureLiterals clauses a, l.var = x
  · obtain ⟨l, hl, rfl⟩ := hvar
    rw [hgiven l hl] at hx
    cases hx
    exact purify_makes v hl (negate_notMem_pureLiterals hl)
  · have hother : ∀ l ∈ pureLiterals clauses a, l.var ≠ x := fun l hl hx => hvar ⟨l, hl, hx⟩
    rw [purify_apply v hother]
    rw [hkept x hother] at hx
    exact hv x b hx

end Pass

end Clausal
