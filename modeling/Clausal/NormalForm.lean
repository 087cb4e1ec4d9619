import Clausal.Clause

namespace Clausal

namespace NormalForm

/-- The part of a clause list that has been scanned: the last unit literal met
    and the clauses kept, latest first. -/
structure Scan where
  unit : Option Literal
  kept : List Clause

/-- Adds one clause to the scan. A unit clause is kept and remembered; a longer
    clause is left out if it starts with the unit literal met last. -/
def Scan.visit (scan : Scan) (c : Clause) : Scan :=
  match c with
  | [l] => ⟨some l, c :: scan.kept⟩
  | [] => ⟨scan.unit, c :: scan.kept⟩
  | l :: _ => if scan.unit = some l then scan else ⟨scan.unit, c :: scan.kept⟩

/-- Leaves out the clauses that start with the unit literal met last before
    them. -/
def dropCovered (clauses : List Clause) : List Clause :=
  (clauses.foldl Scan.visit ⟨none, []⟩).kept.reverse

/-- The clauses that do not start with the unit literal met last before them,
    where `unit` is the one met before the list. -/
def uncovered (unit : Option Literal) : List Clause → List Clause
  | [] => []
  | [] :: rest => [] :: uncovered unit rest
  | [l] :: rest => [l] :: uncovered (some l) rest
  | (l :: m :: c) :: rest =>
    if unit = some l then uncovered unit rest else (l :: m :: c) :: uncovered unit rest

/-- The scan adds to what it has kept the clauses that its latest unit does not cover. -/
theorem kept_foldl_visit (scan : Scan) (clauses : List Clause) :
    (clauses.foldl Scan.visit scan).kept.reverse =
      scan.kept.reverse ++ uncovered scan.unit clauses := by
  induction clauses generalizing scan with
  | nil => simp [uncovered]
  | cons c rest ih =>
    rw [List.foldl_cons, ih]
    match c with
    | [] => simp [Scan.visit, uncovered]
    | [l] => simp [Scan.visit, uncovered]
    | l :: m :: c =>
      simp only [Scan.visit, uncovered]
      split
      · rfl
      · simp

/-- The scan starts without a unit. -/
theorem dropCovered_eq (clauses : List Clause) : dropCovered clauses = uncovered none clauses := by
  simp [dropCovered, kept_foldl_visit]

/-- What is not covered stays in its order. -/
theorem uncovered_sublist (unit : Option Literal) (clauses : List Clause) :
    (uncovered unit clauses).Sublist clauses := by
  fun_induction uncovered unit clauses with
  | case1 => exact .slnil
  | case2 _ _ ih => exact ih.cons_cons _
  | case3 _ _ _ ih => exact ih.cons_cons _
  | case4 _ _ _ _ ih => exact ih.cons _
  | case5 _ _ _ _ _ _ ih => exact ih.cons_cons _

/-- Of the clauses that are not covered none is covered. -/
theorem uncovered_uncovered (unit : Option Literal) (clauses : List Clause) :
    uncovered unit (uncovered unit clauses) = uncovered unit clauses := by
  fun_induction uncovered unit clauses with
  | case1 => rfl
  | case2 _ _ ih => simp [uncovered, ih]
  | case3 _ _ _ ih => simp [uncovered, ih]
  | case4 _ _ _ _ ih => exact ih
  | case5 _ _ _ _ _ hunit ih => simp [uncovered, ih, hunit]

/-- The number of clauses and literals together. -/
def weight : List Clause → Nat
  | [] => 0
  | c :: clauses => c.length + 1 + weight clauses

@[simp] theorem weight_nil : weight [] = 0 := rfl

@[simp] theorem weight_cons (c : Clause) (clauses : List Clause) :
    weight (c :: clauses) = c.length + 1 + weight clauses := rfl

/-- Leaving out clauses makes the weight no larger. -/
theorem weight_le_of_sublist {clauses clauses' : List Clause} (h : clauses.Sublist clauses') :
    weight clauses ≤ weight clauses' := by
  induction h with
  | slnil => exact Nat.le_refl _
  | cons c _ ih => rw [weight_cons]; omega
  | cons_cons c _ ih => rw [weight_cons, weight_cons]; omega

/-- The order of the clauses does not matter for the weight. -/
theorem weight_perm {clauses clauses' : List Clause} (h : clauses.Perm clauses') :
    weight clauses = weight clauses' := by
  induction h with
  | nil => rfl
  | cons c _ ih => rw [weight_cons, weight_cons, ih]
  | swap c d _ => simp only [weight_cons]; omega
  | trans _ _ ih ih' => exact ih.trans ih'

/-- Canonical clauses are no longer than the clauses they come from. -/
theorem weight_map_canonical_le (clauses : List Clause) :
    weight (clauses.map Clause.canonical) ≤ weight clauses := by
  induction clauses with
  | nil => exact Nat.le_refl _
  | cons c rest ih =>
    have hlength : c.canonical.length ≤ c.length := length_sortDistinct_le c
    simp only [List.map_cons, weight_cons]
    omega

end NormalForm

/-- The canonical form of a clause list: every clause canonical, the clauses
    ascending without repetition, and no clause that starts with the literal of
    a unit clause in front of it. -/
def simplify (clauses : List Clause) : List Clause :=
  NormalForm.dropCovered (sortDistinct (clauses.map Clause.canonical))

namespace Clause

/-- The canonical form of a canonical clause is the clause itself. -/
theorem canonical_canonical (c : Clause) : c.canonical.canonical = c.canonical :=
  sortDistinct_of_ascending (ascending_sortDistinct c)

end Clause

/-- What is kept are some of the sorted canonical clauses, in their order. -/
theorem simplify_sublist (clauses : List Clause) :
    (simplify clauses).Sublist (sortDistinct (clauses.map Clause.canonical)) := by
  rw [simplify, NormalForm.dropCovered_eq]
  exact NormalForm.uncovered_sublist none _

/-- The clauses that are kept are in strictly ascending order. -/
theorem ascending_simplify (clauses : List Clause) : Ascending (simplify clauses) :=
  (ascending_sortDistinct _).sublist (simplify_sublist clauses)

/-- Every clause that is kept is canonical. -/
theorem canonical_of_mem_simplify {clauses : List Clause} {c : Clause}
    (h : c ∈ simplify clauses) : c.canonical = c := by
  have hmem := (simplify_sublist clauses).subset h
  rw [mem_sortDistinct, List.mem_map] at hmem
  obtain ⟨d, _, rfl⟩ := hmem
  exact Clause.canonical_canonical d

/-- The canonical form is its own canonical form. -/
theorem simplify_simplify (clauses : List Clause) :
    simplify (simplify clauses) = simplify clauses := by
  have hmap : (simplify clauses).map Clause.canonical = simplify clauses := by
    conv => rhs; rw [← List.map_id (simplify clauses)]
    exact List.map_congr_left fun c hc => canonical_of_mem_simplify hc
  rw [simplify, hmap, sortDistinct_of_ascending (ascending_simplify clauses),
    NormalForm.dropCovered_eq, simplify, NormalForm.dropCovered_eq,
    NormalForm.uncovered_uncovered]

/-- Simplifying does not make the clauses longer or more. -/
theorem weight_simplify_le (clauses : List Clause) :
    NormalForm.weight (simplify clauses) ≤ NormalForm.weight clauses := by
  have hsorted : NormalForm.weight (sortDistinct (clauses.map Clause.canonical)) ≤
      NormalForm.weight (clauses.map Clause.canonical) :=
    Nat.le_trans (NormalForm.weight_le_of_sublist (collapse_sublist _))
      (Nat.le_of_eq (NormalForm.weight_perm (List.mergeSort_perm _ _)))
  exact Nat.le_trans (NormalForm.weight_le_of_sublist (simplify_sublist clauses))
    (Nat.le_trans hsorted (NormalForm.weight_map_canonical_le clauses))

end Clausal
