import Clausal.Proofs.NormalForm
import Clausal.Proofs.Reduction.Chain

namespace Clausal

/-- The second clause list is obtained from the first by reordering clauses, by
    reordering the literals of clauses, and by repeating clauses. -/
inductive Rearranges : List Clause → List Clause → Prop
  | reorder {clauses clauses' : List Clause} (h : clauses.Perm clauses') :
      Rearranges clauses clauses'
  | reorderLiterals {c c' : Clause} (h : c.Perm c') (rest : List Clause) :
      Rearranges (c :: rest) (c' :: rest)
  | again {c : Clause} {clauses : List Clause} (h : c ∈ clauses) :
      Rearranges clauses (c :: clauses)
  | trans {clauses clauses' clauses'' : List Clause} (h : Rearranges clauses clauses')
      (h' : Rearranges clauses' clauses'') : Rearranges clauses clauses''

/-- Every clause of the first list is in the second, up to the order of its
    literals. -/
def Within (clauses clauses' : List Clause) : Prop :=
  ∀ c ∈ clauses, ∃ c' ∈ clauses', c.Perm c'

instance (clauses clauses' : List Clause) : Decidable (Within clauses clauses') :=
  inferInstanceAs (Decidable (∀ c ∈ clauses, ∃ c' ∈ clauses', c.Perm c'))

namespace Within

variable {clauses clauses' clauses'' : List Clause}

/-- Clauses that are among others are within them. -/
theorem of_subset (h : clauses ⊆ clauses') : Within clauses clauses' :=
  fun c hc => ⟨c, h hc, .refl c⟩

/-- Clauses within clauses within others are within those. -/
theorem trans (h : Within clauses clauses') (h' : Within clauses' clauses'') :
    Within clauses clauses'' := by
  intro c hc
  obtain ⟨c', hc', hperm⟩ := h c hc
  obtain ⟨c'', hc'', hperm'⟩ := h' c' hc'
  exact ⟨c'', hc'', hperm.trans hperm'⟩

/-- Two clauses with the same literals in another order may be added. -/
theorem cons {c c' : Clause} (hperm : c.Perm c') (h : Within clauses clauses') :
    Within (c :: clauses) (c' :: clauses') := by
  refine List.forall_mem_cons.mpr ⟨⟨c', List.mem_cons_self, hperm⟩, fun d hd => ?_⟩
  obtain ⟨d', hd', hperm'⟩ := h d hd
  exact ⟨d', List.mem_cons_of_mem c' hd', hperm'⟩

/-- A rewriting that does not look at the order of the literals keeps clauses within
    others. -/
theorem filterMap (h : Within clauses clauses') {rewrite : Clause → Option Clause}
    (hrewrite : ∀ {c d c' : Clause}, c.Perm d → rewrite c = some c' →
      ∃ d', rewrite d = some d' ∧ c'.Perm d') :
    Within (clauses.filterMap rewrite) (clauses'.filterMap rewrite) := by
  intro c' hc'
  obtain ⟨c, hc, heq⟩ := List.mem_filterMap.mp hc'
  obtain ⟨d, hd, hperm⟩ := h c hc
  obtain ⟨d', heq', hperm'⟩ := hrewrite hperm heq
  exact ⟨d', List.mem_filterMap.mpr ⟨d, hd, heq'⟩, hperm'⟩

/-- A literal that occurs in the clauses occurs in those they are within. -/
theorem exists_mem (h : Within clauses clauses') {l : Literal} (hl : ∃ c ∈ clauses, l ∈ c) :
    ∃ c ∈ clauses', l ∈ c := by
  obtain ⟨c, hc, hl⟩ := hl
  obtain ⟨c', hc', hperm⟩ := h c hc
  exact ⟨c', hc', hperm.mem_iff.mp hl⟩

/-- A clause with one literal cannot be reordered. -/
theorem unit_mem (h : Within clauses clauses') {l : Literal} (hl : [l] ∈ clauses) :
    [l] ∈ clauses' := by
  obtain ⟨c', hc', hperm⟩ := h [l] hl
  rwa [List.singleton_perm.mp hperm]

/-- An empty clause is found again. -/
theorem nil_mem (h : Within clauses clauses') (hnil : [] ∈ clauses) : [] ∈ clauses' := by
  obtain ⟨c', hc', hperm⟩ := h [] hnil
  rwa [List.nil_perm.mp hperm] at hc'

/-- A canonical form is found again. -/
theorem canonical_mem (h : Within clauses clauses') {c : Clause}
    (hc : c ∈ clauses.map Clause.canonical) : c ∈ clauses'.map Clause.canonical := by
  obtain ⟨d, hd, rfl⟩ := List.mem_map.mp hc
  obtain ⟨d', hd', hperm⟩ := h d hd
  exact List.mem_map.mpr ⟨d', hd', (Clause.canonical_perm hperm).symm⟩

/-- Clauses within others are over the same variables. -/
theorem covered (h : Within clauses clauses') {a : Assignment}
    (hcovered : Reduct.Covered ⟨clauses', a⟩) : Reduct.Covered ⟨clauses, a⟩ := by
  intro c hc l hl
  obtain ⟨c', hc', hperm⟩ := h c hc
  exact hcovered c' hc' l (hperm.mem_iff.mp hl)

end Within

/-- The two lists hold the same clauses, up to their order, their number and the
    order of their literals. -/
structure Alike (clauses clauses' : List Clause) : Prop where
  forward : Within clauses clauses'
  backward : Within clauses' clauses

namespace Alike

variable {clauses clauses' clauses'' : List Clause}

theorem refl (clauses : List Clause) : Alike clauses clauses :=
  ⟨.of_subset (List.Subset.refl clauses), .of_subset (List.Subset.refl clauses)⟩

theorem trans (h : Alike clauses clauses') (h' : Alike clauses' clauses'') :
    Alike clauses clauses'' :=
  ⟨h.forward.trans h'.forward, h'.backward.trans h.backward⟩

/-- A rewriting that does not look at the order of the literals keeps clauses alike. -/
theorem filterMap (h : Alike clauses clauses') {rewrite : Clause → Option Clause}
    (hrewrite : ∀ {c d c' : Clause}, c.Perm d → rewrite c = some c' →
      ∃ d', rewrite d = some d' ∧ c'.Perm d') :
    Alike (clauses.filterMap rewrite) (clauses'.filterMap rewrite) :=
  ⟨h.forward.filterMap hrewrite, h.backward.filterMap hrewrite⟩

/-- Clauses that are alike have the same canonical form. -/
theorem simplify_eq (h : Alike clauses clauses') : simplify clauses = simplify clauses' :=
  simplify_congr fun _ => ⟨h.forward.canonical_mem, h.backward.canonical_mem⟩

/-- Clauses that are alike have the same pure literals. -/
theorem pureLiterals_eq (h : Alike clauses clauses') (a : Assignment) :
    Pass.pureLiterals clauses a = Pass.pureLiterals clauses' a := by
  have hoccurs (l : Literal) : (∃ c ∈ clauses, l ∈ c) ↔ ∃ c ∈ clauses', l ∈ c :=
    ⟨h.forward.exists_mem, h.backward.exists_mem⟩
  have hlacks (clauses : List Clause) (l : Literal) :
      (∀ c ∈ clauses, l ∉ c) ↔ ¬ ∃ c ∈ clauses, l ∈ c := by simp
  have hmem (l : Literal) : l ∈ Pass.pureLiterals clauses a ↔ l ∈ Pass.pureLiterals clauses' a := by
    rw [Pass.mem_pureLiterals, Pass.mem_pureLiterals, hoccurs, hlacks, hlacks, hoccurs]
  exact (ascending_sortDistinct _).eq_of_mem_iff (ascending_sortDistinct _) hmem

end Alike

/-- A rearrangement leaves clauses that are alike. -/
theorem Rearranges.alike {clauses clauses' : List Clause} (h : Rearranges clauses clauses') :
    Alike clauses clauses' := by
  induction h with
  | reorder h => exact ⟨.of_subset h.subset, .of_subset h.symm.subset⟩
  | reorderLiterals h rest =>
    have hrest := Alike.refl rest
    exact ⟨.cons h hrest.forward, .cons h.symm hrest.backward⟩
  | @again c clauses h =>
    refine ⟨.of_subset (List.subset_cons_self c clauses), .of_subset ?_⟩
    exact List.cons_subset.mpr ⟨h, List.Subset.refl clauses⟩
  | trans _ _ ih ih' => exact ih.trans ih'

end Clausal
