import Clausal.NormalForm

namespace Clausal

section Ascending

variable {α : Type} [Ord α]

/-- A strictly ascending list repeats nothing. -/
theorem Ascending.nodup [Std.ReflOrd α] {elements : List α} (h : Ascending elements) :
    elements.Nodup := by
  apply h.imp
  rintro a _ hless rfl
  rw [Std.ReflOrd.compare_self] at hless
  cases hless

/-- An ascending list is determined by its elements. -/
theorem Ascending.eq_of_mem_iff [Std.TransOrd α] {elements others : List α}
    (h : Ascending elements) (h' : Ascending others) (hmem : ∀ a, a ∈ elements ↔ a ∈ others) :
    elements = others := by
  refine List.Perm.eq_of_pairwise ?_ h h' ((List.perm_ext_iff_of_nodup h.nodup h'.nodup).mpr hmem)
  intro a b _ _ hless hgreater
  rw [Std.OrientedOrd.eq_swap (a := b), hless] at hgreater
  cases hgreater

/-- Sorting without repetition only depends on which elements there are. -/
theorem sortDistinct_congr [DecidableEq α] [Std.TransOrd α] [Std.LawfulEqOrd α]
    {elements others : List α} (hmem : ∀ a, a ∈ elements ↔ a ∈ others) :
    sortDistinct elements = sortDistinct others := by
  apply (ascending_sortDistinct elements).eq_of_mem_iff (ascending_sortDistinct others)
  intro a
  rw [mem_sortDistinct, mem_sortDistinct, hmem a]

end Ascending

/-- The canonical form does not depend on the order of the literals. -/
theorem Clause.canonical_perm {c d : Clause} (h : c.Perm d) : c.canonical = d.canonical :=
  sortDistinct_congr fun _ => h.mem_iff

/-- The canonical form of a clause list depends only on the canonical forms of
    its clauses, not on their order and number. -/
theorem simplify_congr {clauses others : List Clause}
    (h : ∀ c, c ∈ clauses.map Clause.canonical ↔ c ∈ others.map Clause.canonical) :
    simplify clauses = simplify others := by
  rw [simplify, simplify, sortDistinct_congr h]

/-- Simplifying does not make the clauses more. -/
theorem length_simplify_le (clauses : List Clause) :
    (simplify clauses).length ≤ clauses.length := by
  calc (simplify clauses).length
      ≤ (sortDistinct (clauses.map Clause.canonical)).length := (simplify_sublist clauses).length_le
    _ ≤ (clauses.map Clause.canonical).length := length_sortDistinct_le _
    _ = clauses.length := List.length_map _

/-- Literals are ordered by their values. -/
theorem Literal.compare_eq_lt {l m : Literal} : compare l m = .lt ↔ l.value < m.value :=
  Int.compare_eq_lt

/-- Clauses are ordered by their first literals, and then by the rest. -/
theorem Clause.compare_cons_eq_lt {l m : Literal} {c d : Clause} :
    compare (l :: c) (m :: d) = .lt ↔ l.value < m.value ∨ l = m ∧ compare c d = .lt := by
  rw [List.compare_cons_cons, Ordering.then_eq_lt, Literal.compare_eq_lt, Std.compare_eq_iff_eq]

/-- Clauses are compared like the lists of the values of their literals. -/
theorem Clause.compare_eq_lt {c d : Clause} :
    compare c d = .lt ↔ c.map Literal.value < d.map Literal.value := by
  induction c generalizing d with
  | nil => cases d <;> simp
  | cons l c ih =>
    cases d with
    | nil => simp
    | cons m d =>
      rw [compare_cons_eq_lt, ih, List.map_cons, List.map_cons, List.cons_lt_cons_iff,
        Literal.ext_iff]

/-- The literals of an ascending clause are in the order of their values. -/
theorem Clause.ascending_iff {c : Clause} :
    Ascending c ↔ c.Pairwise fun l m => l.value < m.value := by
  simp only [Ascending, Literal.compare_eq_lt]

/-- Ascending clauses are in the lexicographic order of the values of their literals. -/
theorem ascending_clauses_iff {clauses : List Clause} :
    Ascending clauses ↔
      clauses.Pairwise fun c d => c.map Literal.value < d.map Literal.value := by
  simp only [Ascending, Clause.compare_eq_lt]

namespace NormalForm

/-- A longer clause is covered if its first literal makes up a unit clause of the
    list. -/
def Covered (clauses : List Clause) (c : Clause) : Prop :=
  2 ≤ c.length ∧ ∃ l, c.head? = some l ∧ [l] ∈ clauses

variable {clauses : List Clause} {c : Clause} {l m : Literal}

@[simp] theorem not_covered_nil : ¬ Covered clauses [] := by
  simp [Covered]

/-- A unit clause is never covered. -/
@[simp] theorem not_covered_unit : ¬ Covered clauses [l] := by
  simp [Covered]

/-- A longer clause is covered if its first literal is a unit clause. -/
@[simp] theorem covered_cons : Covered clauses (l :: m :: c) ↔ [l] ∈ clauses := by
  simp [Covered]

/-- A covered clause holds a literal that is a unit clause. -/
theorem Covered.exists_mem (h : Covered clauses c) : ∃ l ∈ c, [l] ∈ clauses := by
  obtain ⟨_, l, hhead, hunit⟩ := h
  exact ⟨l, List.mem_of_mem_head? hhead, hunit⟩

/-- Only the unit clauses of a list matter to what it covers. -/
theorem covered_congr {others : List Clause} (h : ∀ l, [l] ∈ clauses ↔ [l] ∈ others) :
    Covered clauses c ↔ Covered others c := by
  simp only [Covered, h]

/-- The unit clause that the scan has met last, if there is one. -/
private def met (unit : Option Literal) : List Clause := unit.toList.map fun l => [l]

private theorem unit_mem_met {unit : Option Literal} : [l] ∈ met unit ↔ unit = some l := by
  simp [met]

/-- A unit clause lies between an earlier one and the clauses that it covers, so
    the earlier one covers nothing behind it. -/
private theorem covered_behind_unit {front rest : List Clause}
    (h : Ascending (front ++ [l] :: rest)) (hc : c ∈ rest) :
    Covered (front ++ [l] :: rest) c ↔ Covered ([l] :: rest) c := by
  obtain ⟨_, hback, hfront⟩ := List.pairwise_append.mp h
  match c with
  | [] => simp
  | [_] => simp
  | k :: m :: d =>
    simp only [covered_cons, List.mem_append, or_iff_right_iff_imp]
    intro hk
    have hbefore := hfront [k] hk [l] List.mem_cons_self
    have hafter := (List.pairwise_cons.mp hback).1 _ hc
    simp only [Clause.compare_cons_eq_lt, List.compare_nil_nil, reduceCtorEq, and_false,
      or_false] at hbefore
    obtain hless | ⟨rfl, _⟩ := Clause.compare_cons_eq_lt.mp hafter
    · omega
    · omega

/-- Scanning an ascending list leaves out exactly the covered clauses: the unit
    clause met last stands for all of them. -/
private theorem mem_uncovered {unit : Option Literal} (h : Ascending (met unit ++ clauses)) :
    c ∈ uncovered unit clauses ↔ c ∈ clauses ∧ ¬ Covered (met unit ++ clauses) c := by
  fun_induction uncovered unit clauses with
  | case1 => simp
  | case2 unit rest ih =>
    have hrest := ih (h.sublist ((List.sublist_cons_self [] rest).append_left _))
    have hsame : Covered (met unit ++ [] :: rest) c ↔ Covered (met unit ++ rest) c :=
      covered_congr (by simp)
    rw [List.mem_cons, List.mem_cons, hrest, hsame]
    grind [not_covered_nil]
  | case3 unit l rest ih =>
    have hrest : c ∈ uncovered (some l) rest ↔ c ∈ rest ∧ ¬ Covered ([l] :: rest) c :=
      ih (h.sublist (List.sublist_append_right _ _))
    have hsame (hc : c ∈ rest) := covered_behind_unit h hc
    rw [List.mem_cons, List.mem_cons, hrest]
    grind [not_covered_unit]
  | case4 l m d rest ih =>
    have hrest := ih (h.sublist ((List.sublist_cons_self _ rest).append_left _))
    have hsame : Covered (met (some l) ++ (l :: m :: d) :: rest) c ↔
        Covered (met (some l) ++ rest) c := covered_congr (by simp)
    have hcovered : Covered (met (some l) ++ (l :: m :: d) :: rest) (l :: m :: d) := by
      simp [unit_mem_met]
    rw [hrest, List.mem_cons, hsame]
    grind
  | case5 unit l m d rest hunit ih =>
    have hrest := ih (h.sublist ((List.sublist_cons_self _ rest).append_left _))
    have hsame : Covered (met unit ++ (l :: m :: d) :: rest) c ↔
        Covered (met unit ++ rest) c := covered_congr (by simp)
    have hlater : [l] ∉ rest := by
      intro hmem
      have hless := (List.pairwise_cons.mp (List.pairwise_append.mp h).2.1).1 [l] hmem
      simp at hless
    have hkept : ¬ Covered (met unit ++ (l :: m :: d) :: rest) (l :: m :: d) := by
      simp [unit_mem_met, hunit, hlater]
    rw [List.mem_cons, List.mem_cons, hrest, hsame]
    grind

/-- Of ascending clauses the scan drops exactly those that are covered. -/
theorem mem_dropCovered (h : Ascending clauses) :
    c ∈ dropCovered clauses ↔ c ∈ clauses ∧ ¬ Covered clauses c := by
  rw [dropCovered_eq]
  exact mem_uncovered h

end NormalForm

section Simplify

variable {clauses : List Clause} {c : Clause}

/-- The canonical form holds the canonical clauses that are not covered. -/
theorem mem_simplify : c ∈ simplify clauses ↔
    c ∈ clauses.map Clause.canonical ∧ ¬ NormalForm.Covered (clauses.map Clause.canonical) c := by
  rw [simplify, NormalForm.mem_dropCovered (ascending_sortDistinct _), mem_sortDistinct,
    NormalForm.covered_congr fun _ => mem_sortDistinct]

/-- Every clause that is kept is the canonical form of a given one. -/
theorem exists_of_mem_simplify (h : c ∈ simplify clauses) : ∃ d ∈ clauses, d.canonical = c :=
  List.mem_map.mp (mem_simplify.mp h).1

/-- Some literal of every clause has a property if and only if this holds of the
    canonical form, since a covered clause holds the literal of a unit clause. -/
theorem forall_mem_simplify {holds : Literal → Prop} :
    (∀ c ∈ simplify clauses, ∃ l ∈ c, holds l) ↔ ∀ c ∈ clauses, ∃ l ∈ c, holds l := by
  constructor
  · intro h c hc
    have hmem : c.canonical ∈ clauses.map Clause.canonical := List.mem_map_of_mem hc
    by_cases hcovered : NormalForm.Covered (clauses.map Clause.canonical) c.canonical
    · obtain ⟨l, hl, hunit⟩ := hcovered.exists_mem
      obtain ⟨m, hm, hholds⟩ := h [l] (mem_simplify.mpr ⟨hunit, NormalForm.not_covered_unit⟩)
      rw [List.mem_singleton.mp hm] at hholds
      exact ⟨l, mem_sortDistinct.mp hl, hholds⟩
    · obtain ⟨l, hl, hholds⟩ := h _ (mem_simplify.mpr ⟨hmem, hcovered⟩)
      exact ⟨l, mem_sortDistinct.mp hl, hholds⟩
  · intro h c hc
    obtain ⟨d, hd, rfl⟩ := exists_of_mem_simplify hc
    obtain ⟨l, hl, hholds⟩ := h d hd
    exact ⟨l, mem_sortDistinct.mpr hl, hholds⟩

/-- Without repetitions the canonical form only reorders the literals. -/
theorem Clause.perm_canonical (h : c.Nodup) : c.Perm c.canonical :=
  (List.perm_ext_iff_of_nodup h (ascending_sortDistinct c).nodup).mpr fun _ => mem_sortDistinct.symm

/-- Without repetitions only unit clauses have a canonical form of one literal. -/
theorem unit_mem_canonical (hnodup : ∀ c ∈ clauses, c.Nodup) {l : Literal} :
    [l] ∈ clauses.map Clause.canonical ↔ [l] ∈ clauses := by
  constructor
  · intro hl
    obtain ⟨c, hc, hcanonical⟩ := List.mem_map.mp hl
    have hperm := hcanonical ▸ Clause.perm_canonical (hnodup c hc)
    rwa [List.perm_singleton.mp hperm] at hc
  · intro hl
    exact List.mem_map.mpr ⟨[l], hl, sortDistinct_of_ascending (List.pairwise_singleton _ l)⟩

/-- The unit clauses are kept, and no others come up. -/
theorem unit_mem_simplify (hnodup : ∀ c ∈ clauses, c.Nodup) {l : Literal} :
    [l] ∈ simplify clauses ↔ [l] ∈ clauses := by
  rw [mem_simplify, unit_mem_canonical hnodup]
  exact and_iff_left NormalForm.not_covered_unit

/-- A clause has its canonical form in that of the list unless one of its literals
    makes up a unit clause. -/
theorem mem_simplify_or (hnodup : ∀ c ∈ clauses, c.Nodup) (hc : c ∈ clauses) :
    c.canonical ∈ simplify clauses ∨ ∃ l ∈ c, [l] ∈ clauses := by
  by_cases hcovered : NormalForm.Covered (clauses.map Clause.canonical) c.canonical
  · obtain ⟨l, hl, hunit⟩ := hcovered.exists_mem
    exact .inr ⟨l, mem_sortDistinct.mp hl, (unit_mem_canonical hnodup).mp hunit⟩
  · exact .inl (mem_simplify.mpr ⟨List.mem_map_of_mem hc, hcovered⟩)

end Simplify

end Clausal
