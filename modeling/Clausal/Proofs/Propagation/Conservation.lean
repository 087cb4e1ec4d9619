import Clausal.Formula
import Clausal.Proofs.Propagation.Settle

namespace Clausal

/-- The clauses that are in the buckets or have not been visited after the visit of
    a bucket. -/
def Visit.indices : Visit → List Nat
  | .done p => p.watches.indices
  | .conflict clause rest p => clause :: rest ++ p.watches.indices

namespace Propagation

/-- The clause that has been found false. -/
def Outcome.conflict? : Outcome → Option Nat
  | .settled .. => none
  | .conflict clause .. => some clause

variable {clauses : Array Clause} {p : Propagation}

private theorem append_indices_of_push {w w' : Watches} {l : Literal} {clause : Nat}
    (rest : List Nat) (hpush : w.push l clause = .ok w') :
    (rest ++ w'.indices).Perm (clause :: rest ++ w.indices) :=
  ((Watches.indices_of_push hpush).append_left rest).trans List.perm_middle

/-- The visit of a bucket puts each of its clauses into a bucket again, which may be
    the same, or leaves it for the end. -/
theorem visit_indices {bucket : List Nat} {result : Visit}
    (h : visit clauses bucket p = .ok result) :
    result.indices.Perm (bucket ++ p.watches.indices) := by
  fun_induction visit clauses bucket p with
  | case1 p =>
    cases h
    exact List.Perm.refl _
  | case2 => cases h
  | case3 => cases h
  | case4 clause rest w a implications pending c hclause l hchoice w' hpush ih =>
    exact (ih h).trans (append_indices_of_push rest hpush)
  | case5 => cases h
  | case6 => cases h
  | case7 clause rest w a implications pending c hclause l hchoice implications' a' hassign w'
      hpush ih =>
    exact (ih h).trans (append_indices_of_push rest hpush)
  | case8 =>
    cases h
    exact List.Perm.refl _

/-- After a conflict the rest of the bucket is in the buckets again. -/
theorem abandon_indices {falsified : Literal} {clause : Nat} {rest : List Nat} {outcome : Outcome}
    (h : abandon falsified clause rest p = .ok outcome) :
    outcome.watches.indices.Perm (clause :: rest ++ p.watches.indices) := by
  obtain ⟨w, a, hextend, _, rfl⟩ := abandon_eq_ok h
  exact Watches.indices_of_extend hextend

/-- Whatever the buckets hold, propagation neither loses a clause nor adds one. -/
theorem settle_indices {outcome : Outcome} (h : settle clauses p = .ok outcome) :
    outcome.watches.indices.Perm p.watches.indices := by
  fun_induction settle clauses p with
  | case1 =>
    cases h
    exact List.Perm.refl _
  | case2 => cases h
  | case3 => cases h
  | case4 => cases h
  | case5 w a implications falsified pending bucket hbucket cleared hclear p' hvisit ih =>
    exact (ih h).trans ((visit_indices hvisit).trans (Watches.indices_of_clear hbucket hclear).symm)
  | case6 w a implications falsified pending bucket hbucket cleared hclear clause rest p' hvisit =>
    calc outcome.watches.indices.Perm (clause :: rest ++ p'.watches.indices) := abandon_indices h
      List.Perm _ (bucket.toList ++ cleared.indices) := visit_indices hvisit
      List.Perm _ w.indices := (Watches.indices_of_clear hbucket hclear).symm

end Propagation

namespace Watches

variable {w : Watches} {clauses : Array Clause} {a : Assignment} {falsified : Literal}

/-- Propagation ends without a fault on every index with a bucket for each literal of
    the variables, whether or not its clauses are watched as they should be and
    whether or not the given literal is false. However it ends, all buckets together
    hold the same clauses as before, each as often as before. -/
theorem propagate_conserves (numVars : Nat)
    (hbuckets : w.buckets.size = LiteralCode.tableLength numVars) (hnum : a.numVars = numVars)
    (hrange : ∀ c ∈ clauses, ∀ l ∈ c, l.var.id ≤ numVars)
    (hindex : ∀ i ∈ w.indices, i < clauses.size) (hfalsified : falsified.var.id ≤ numVars) :
    ∃ outcome, w.propagate falsified clauses a = .ok outcome ∧
      outcome.watches.indices.Perm w.indices := by
  subst hnum
  obtain ⟨outcome, hpropagate⟩ := propagate_total hrange hbuckets
    (fun i hi => hindex i (mem_indices_of_mem_entries hi)) hfalsified
  exact ⟨outcome, hpropagate, Propagation.settle_indices hpropagate⟩

/-- Two clauses are watched twice, and one of them is also in a bucket without a
    literal. At first the literal is not false, so that a clause returns to the bucket
    that is visited. Once it is false, the visit ends in the middle of the bucket. -/
theorem propagate_conserves_of_stale_index :
    ∃ f settled back a a' implications implications', ∃ w : Watches, ∃ l : Literal,
      Formula.ofRows [[1, 2], [3], [-3, 2]] = .ok f ∧ l.value = 1 ∧
      w = ⟨#[#[2], #[], #[1, 0, 0], #[], #[], #[], #[], #[2, 2]]⟩ ∧
      w.propagate l f.clauses.toArray (.blank 3) = .ok (.settled settled a implications) ∧
      settled.indices.Perm w.indices ∧
      w.propagate l f.clauses.toArray ⟨#[some false, some false, none]⟩ =
        .ok (.conflict 0 back a' implications') ∧
      back.indices.Perm w.indices := by
  let w : Watches := ⟨#[#[2], #[], #[1, 0, 0], #[], #[], #[], #[], #[2, 2]]⟩
  let l : Literal := ⟨1, by decide, by decide⟩
  obtain ⟨f, hrows, hrange, hindex, hsettles, hconflicts⟩ :
      ∃ f, Formula.ofRows [[1, 2], [3], [-3, 2]] = .ok f ∧
        (∀ c ∈ f.clauses.toArray, ∀ l ∈ c, l.var.id ≤ 3) ∧
        (∀ i ∈ w.indices, i < f.clauses.toArray.size) ∧
        (w.propagate l f.clauses.toArray (.blank 3)).toOption.map
          Propagation.Outcome.conflict? = some none ∧
        (w.propagate l f.clauses.toArray ⟨#[some false, some false, none]⟩).toOption.map
          Propagation.Outcome.conflict? = some (some 0) :=
    ⟨_, rfl, by decide, by decide, by decide +kernel, by decide +kernel⟩
  have hl : l.var.id ≤ 3 := by decide
  obtain ⟨outcome, hfirst, hperm⟩ :=
    propagate_conserves (w := w) (a := .blank 3) 3 rfl rfl hrange hindex hl
  obtain ⟨outcome', hsecond, hperm'⟩ :=
    propagate_conserves (w := w) (a := ⟨#[some false, some false, none]⟩) 3 rfl rfl hrange hindex hl
  rw [hfirst] at hsettles
  rw [hsecond] at hconflicts
  cases outcome with
  | conflict => cases hsettles
  | settled settled a implications =>
    cases outcome' with
    | settled => cases hconflicts
    | conflict clause back a' implications' =>
      cases hconflicts
      exact ⟨f, settled, back, a, a', implications, implications', w, l, hrows, rfl, rfl, hfirst,
        hperm, hsecond, hperm'⟩

end Watches

end Clausal
