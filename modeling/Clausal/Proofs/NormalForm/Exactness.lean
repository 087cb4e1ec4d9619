import Clausal.Proofs.NormalForm
import Mathlib.Data.Finset.Dedup

namespace Clausal

/-- The literal sets of the clauses in a list. -/
def literalSets (clauses : List Clause) : Finset (Finset Literal) :=
  (clauses.map List.toFinset).toFinset

/-- The clauses of a list with the literals of each in ascending order, none of
    them twice. -/
def sortedForms (clauses : List Clause) : Set Clause :=
  {k | k.Pairwise (fun l m => l.value < m.value) ∧ k.toFinset ∈ literalSets clauses}

variable {clauses : List Clause}

/-- The sets are those of the literals of the clauses. -/
theorem mem_literalSets {literals : Finset Literal} :
    literals ∈ literalSets clauses ↔ ∃ c ∈ clauses, c.toFinset = literals := by
  simp [literalSets]

/-- Sorting a clause gives the only ascending clause with the same literals. -/
theorem mem_sortedForms {k : Clause} :
    k ∈ sortedForms clauses ↔ k ∈ clauses.map Clause.canonical := by
  have hsame {c d : Clause} : c.toFinset = d.toFinset ↔ ∀ l, l ∈ c ↔ l ∈ d := by
    simp [Finset.ext_iff]
  rw [List.mem_map]
  constructor
  · rintro ⟨hascending, hmem⟩
    obtain ⟨c, hc, hsets⟩ := mem_literalSets.mp hmem
    refine ⟨c, hc, ?_⟩
    rw [Clause.canonical, sortDistinct_congr (hsame.mp hsets)]
    exact sortDistinct_of_ascending (Clause.ascending_iff.mpr hascending)
  · rintro ⟨c, hc, rfl⟩
    refine ⟨Clause.ascending_iff.mp (ascending_sortDistinct c), mem_literalSets.mpr ⟨c, hc, ?_⟩⟩
    exact hsame.mpr fun l => mem_sortDistinct.symm

/-- The canonical form of a clause list has the sorted clauses in lexicographic
    order, each once, without the longer ones that start with the literal of a
    unit clause. So it is its own canonical form, and it depends on the literal
    sets of the clauses alone. -/
theorem simplify_canonical (clauses : List Clause) :
    (simplify clauses).Pairwise (fun c d => c.map Literal.value < d.map Literal.value) ∧
    (∀ k, k ∈ simplify clauses ↔ k ∈ sortedForms clauses ∧
      ¬ (2 ≤ k.length ∧ ∃ l, k.head? = some l ∧ [l] ∈ sortedForms clauses)) ∧
    simplify (simplify clauses) = simplify clauses ∧
    ∀ others, literalSets others = literalSets clauses → simplify others = simplify clauses := by
  refine ⟨ascending_clauses_iff.mp (ascending_simplify clauses), fun k => ?_,
    simplify_simplify clauses, fun others hsets => simplify_congr fun k => ?_⟩
  · rw [mem_simplify]
    simp only [NormalForm.Covered, mem_sortedForms]
  · rw [← mem_sortedForms, ← mem_sortedForms, sortedForms, sortedForms, hsets]

/-- Two lists that spell the same sets of literals, one of them with repetitions. -/
theorem simplify_canonical_of_repetitions :
    ∃ clauses others, [[1, 4], [2, 3], [1], [1, 2], [-3, 1]].mapM Clause.ofInts = .ok clauses ∧
      [[1, 1], [-3, 1], [2, 1, 2], [3, 2], [4, 1], [1]].mapM Clause.ofInts = .ok others ∧
      literalSets others = literalSets clauses ∧ simplify others = simplify clauses ∧
      simplify (simplify clauses) = simplify clauses := by
  obtain ⟨clauses, others, hrows, hrows', hsets⟩ :
      ∃ clauses others, [[1, 4], [2, 3], [1], [1, 2], [-3, 1]].mapM Clause.ofInts = .ok clauses ∧
        [[1, 1], [-3, 1], [2, 1, 2], [3, 2], [4, 1], [1]].mapM Clause.ofInts = .ok others ∧
        literalSets others = literalSets clauses :=
    ⟨_, _, rfl, rfl, by decide⟩
  obtain ⟨_, _, hidempotent, hlists⟩ := simplify_canonical clauses
  exact ⟨clauses, others, hrows, hrows', hsets, hlists others hsets, hidempotent⟩

end Clausal
