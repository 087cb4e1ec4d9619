import Clausal.Proofs.Propagation.Progress

namespace Clausal

namespace Propagation

/-- The index that propagation ends with. -/
def Outcome.watches : Outcome → Watches
  | .settled w _ _ => w
  | .conflict _ w _ _ => w

/-- How propagation ends, told by what happens to the pending buckets: the clauses
    of the first all find new watches, and it goes on with the others, or one of
    them is false, and what has not been moved goes back to the bucket. -/
inductive Settles (clauses : Array Clause) : Propagation → Outcome → Prop
  | settled (w : Watches) (current : Assignment) (implications : Array (Nat × Literal)) :
      Settles clauses ⟨w, current, implications, []⟩ (.settled w current implications)
  | visited {w cleared : Watches} {current : Assignment} {implications : Array (Nat × Literal)}
      {falsified : Literal} {pending : List Literal} {bucket : List Nat} {p : Propagation}
      {outcome : Outcome} (hemptied : w.Emptied falsified bucket cleared)
      (hmoves : Moves clauses bucket ⟨cleared, current, implications, pending⟩ p)
      (hrest : Settles clauses p outcome) :
      Settles clauses ⟨w, current, implications, falsified :: pending⟩ outcome
  | abandoned {w cleared w' : Watches} {current a' : Assignment}
      {implications : Array (Nat × Literal)} {falsified : Literal} {pending : List Literal}
      {front rest : List Nat} {clause : Nat} {p : Propagation}
      (hemptied : w.Emptied falsified (front ++ clause :: rest) cleared)
      (hmoves : Moves clauses front ⟨cleared, current, implications, pending⟩ p)
      (hfalse : Falsified clauses p.assignment clause)
      (hsize : w'.buckets.size = p.watches.buckets.size)
      (hentries : w'.entries.Perm
        ((clause :: rest).map (falsified.code, ·) ++ p.watches.entries))
      (hback : p.assignment.unassignAll (impliedVars p.implications) = .ok a') :
      Settles clauses ⟨w, current, implications, falsified :: pending⟩
        (.conflict clause w' a' p.implications)

variable {clauses : Array Clause} {p : Propagation} {outcome : Outcome}

/-- Ending with a conflict puts the clauses back and takes the implied values away. -/
theorem abandon_eq_ok {falsified : Literal} {clause : Nat} {rest : List Nat}
    (h : abandon falsified clause rest p = .ok outcome) :
    ∃ w a, p.watches.extend falsified (clause :: rest) = .ok w ∧
      p.assignment.unassignAll (impliedVars p.implications) = .ok a ∧
      outcome = .conflict clause w a p.implications := by
  obtain ⟨w, a, implications, pending⟩ := p
  simp only [abandon] at h
  split at h
  · cases h
  · rename_i w' hextend
    split at h
    · cases h
    · rename_i a' hback
      cases h
      exact ⟨w', a', hextend, hback, rfl⟩

/-- Propagation that does not end with a fault ends in one of the ways told. -/
theorem settles_of_settle (h : settle clauses p = .ok outcome) : Settles clauses p outcome := by
  fun_induction settle clauses p with
  | case1 w current implications =>
    cases h
    exact .settled w current implications
  | case2 => cases h
  | case3 => cases h
  | case4 => cases h
  | case5 w current implications falsified pending bucket hbucket cleared hclear p' hvisit ih =>
    exact .visited (Watches.emptied_of_clear hbucket hclear) (visit_reached hvisit) (ih h)
  | case6 w current implications falsified pending bucket hbucket cleared hclear clause rest p'
      hvisit =>
    obtain ⟨w', a', hextend, hback, rfl⟩ := abandon_eq_ok h
    obtain ⟨hsize, hentries⟩ := Watches.of_extend hextend
    obtain ⟨front, hfront, hmoves, hfalse⟩ := visit_reached hvisit
    have hemptied := Watches.emptied_of_clear hbucket hclear
    rw [hfront] at hemptied
    exact .abandoned hemptied hmoves hfalse hsize hentries hback

section Totality

variable {numVars : Nat} {w cleared : Watches} {current : Assignment}
  {implications : Array (Nat × Literal)} {falsified : Literal} {pending : List Literal}

private theorem Sized.exists_clear
    (hp : Sized clauses numVars ⟨w, current, implications, falsified :: pending⟩) :
    ∃ bucket cleared, w.bucket falsified = .ok bucket ∧ w.clear falsified = .ok cleared := by
  obtain ⟨bucket, cleared, hbucket, hclear, _⟩ := Watches.clear_spec (w := w) (l := falsified)
    (by rw [hp.buckets]; exact Literal.code_index_lt (hp.pending _ List.mem_cons_self))
  exact ⟨bucket, cleared, hbucket, hclear⟩

private theorem Sized.pop {bucket : List Nat}
    (hp : Sized clauses numVars ⟨w, current, implications, falsified :: pending⟩)
    (hemptied : w.Emptied falsified bucket cleared) :
    Sized clauses numVars ⟨cleared, current, implications, pending⟩ :=
  ⟨hemptied.size.trans hp.buckets, hp.assignment, hp.literals, hp.implied,
    (List.forall_mem_cons.mp hp.pending).2⟩

private theorem abandon_total (hp : Sized clauses numVars p)
    (hfalsified : falsified.var.id ≤ numVars) (clause : Nat) (rest : List Nat) :
    ∃ outcome, abandon falsified clause rest p = .ok outcome := by
  obtain ⟨w, current, implications, pending⟩ := p
  obtain ⟨w', hextend, _⟩ := Watches.extend_spec (w := w) (l := falsified)
    (by rw [hp.buckets]; exact Literal.code_index_lt hfalsified) (clause :: rest)
  have himplied : ∀ v ∈ impliedVars implications, v.id ≤ current.numVars := by
    rw [hp.assignment]
    exact hp.implied
  obtain ⟨a', hback, _⟩ := Assignment.unassignAll_spec himplied
  exact ⟨.conflict clause w' a' implications, by simp only [abandon, hextend, hback]⟩

/-- With tables that are large enough, propagation ends without a fault, whether or
    not the clauses are watched as they should be. -/
theorem settle_total (hp : Sized clauses numVars p)
    (hindex : ∀ i ∈ p.watches.entries.map Prod.snd, i < clauses.size) :
    ∃ outcome, settle clauses p = .ok outcome := by
  fun_induction settle clauses p with
  | case1 w current implications => exact ⟨_, rfl⟩
  | case2 w current implications falsified pending reason hbucket =>
    obtain ⟨bucket, cleared, hbucket', _⟩ := hp.exists_clear
    rw [hbucket] at hbucket'
    cases hbucket'
  | case3 w current implications falsified pending bucket hbucket reason hclear =>
    obtain ⟨bucket', cleared, _, hclear'⟩ := hp.exists_clear
    rw [hclear] at hclear'
    cases hclear'
  | case4 w current implications falsified pending bucket hbucket cleared hclear failure hvisit =>
    have hemptied := Watches.emptied_of_clear hbucket hclear
    obtain ⟨result, hvisit'⟩ := visit_total (hp.pop hemptied) fun i hi =>
      hindex i (hemptied.indices.mem_iff.mpr (List.mem_append_left _ hi))
    rw [hvisit] at hvisit'
    cases hvisit'
  | case5 w current implications falsified pending bucket hbucket cleared hclear p' hvisit ih =>
    have hemptied := Watches.emptied_of_clear hbucket hclear
    have hmoves : Moves clauses bucket.toList _ p' := visit_reached hvisit
    refine ih (hmoves.sized (hp.pop hemptied)) fun i hi => hindex i ?_
    exact hemptied.indices.mem_iff.mpr (hmoves.indices.mem_iff.mp hi)
  | case6 w current implications falsified pending bucket hbucket cleared hclear clause rest p'
      hvisit =>
    have hemptied := Watches.emptied_of_clear hbucket hclear
    obtain ⟨front, _, hmoves, _⟩ := visit_reached hvisit
    exact abandon_total (hmoves.sized (hp.pop hemptied)) (hp.pending _ List.mem_cons_self) clause
      rest

end Totality

/-- Propagation adds no bucket and drops none. -/
theorem Settles.size (h : Settles clauses p outcome) :
    outcome.watches.buckets.size = p.watches.buckets.size := by
  induction h with
  | settled => rfl
  | visited hemptied hmoves _ ih => exact ih.trans (hmoves.size.trans hemptied.size)
  | abandoned hemptied hmoves _ hsize =>
    exact hsize.trans (hmoves.size.trans hemptied.size)

/-- The buckets hold the same clauses in the end, each as often as before. -/
theorem Settles.indices (h : Settles clauses p outcome) :
    (outcome.watches.entries.map Prod.snd).Perm (p.watches.entries.map Prod.snd) := by
  induction h with
  | settled => exact List.Perm.refl _
  | visited hemptied hmoves _ ih => exact ih.trans (hmoves.indices.trans hemptied.indices.symm)
  | @abandoned w cleared w' _ _ _ falsified _ front rest clause p hemptied hmoves _ _ hentries =>
    have hreturned := hentries.map Prod.snd
    rw [List.map_append, Watches.map_snd_entries] at hreturned
    calc (w'.entries.map Prod.snd).Perm (clause :: rest ++ p.watches.entries.map Prod.snd) :=
          hreturned
      List.Perm _ (clause :: rest ++ (front ++ cleared.entries.map Prod.snd)) :=
          hmoves.indices.append_left _
      List.Perm _ (front ++ clause :: rest ++ cleared.entries.map Prod.snd) := by
          rw [← List.append_assoc]
          exact List.perm_append_comm.append_right _
      List.Perm _ (w.entries.map Prod.snd) := hemptied.indices.symm

/-- What every end of propagation is to be like, where `base` is the assignment in
    front of the decision and `a` the one it led to. If it settles, the index is
    valid and every new value is forced. If it meets a conflict, nothing satisfies
    the clauses under the decision, every variable is as it was, and the index is
    valid once the decision is taken back. -/
def Outcome.Sound (clauses : Array Clause) (base a : Assignment) : Outcome → Prop
  | .settled w a' implications =>
    w.Valid clauses a' ∧ a.Gains (impliedVars implications) a' ∧ a.Entails clauses.toList a'
  | .conflict _ w a' _ =>
    w.Valid clauses base ∧ a'.numVars = a.numVars ∧ (∀ v, a'.value? v = a.value? v) ∧
      a.Refutes clauses.toList

section Soundness

variable {base a : Assignment}

/-- Once no literal is pending, every watch is a literal that is not false. -/
private theorem Progress.valid {w : Watches} {current : Assignment}
    {implications : Array (Nat × Literal)}
    (h : Progress clauses base a ⟨w, current, implications, []⟩)
    (honce : (w.entries.map Prod.snd).Perm (List.range clauses.size)) :
    w.Valid clauses current := by
  refine ⟨honce, h.own, fun entry hentry => ?_⟩
  rcases h.live entry hentry with hlive | hpending
  · exact hlive
  · cases hpending

private theorem falsifies_of_value?_eq_none {l : Literal} (h : base.value? l.var = none) :
    base.falsifies l = false := by
  rw [← Bool.not_eq_true, Assignment.falsifies_iff, h]
  simp

/-- After a conflict, a watch that is false belongs to a variable without a value in
    `base`, so the index is valid there. -/
private theorem Progress.valid_base (h : Progress clauses base a p) (hbase : a.Extends base)
    {falsified : Literal} (hfalsified : base.value? falsified.var = none) {returned : List Nat}
    (hown : ∀ i ∈ returned, ∃ c, clauses[i]? = some c ∧ falsified ∈ c) {w : Watches}
    (hentries : w.entries.Perm (returned.map (falsified.code, ·) ++ p.watches.entries))
    (honce : (w.entries.map Prod.snd).Perm (List.range clauses.size)) :
    w.Valid clauses base := by
  refine ⟨honce, ?_, ?_⟩
  · intro entry hentry
    rcases List.mem_append.mp (hentries.mem_iff.mp hentry) with hentry | hentry
    · obtain ⟨i, hi, rfl⟩ := List.mem_map.mp hentry
      simpa using hown i hi
    · exact h.own entry hentry
  · intro entry hentry
    rcases List.mem_append.mp (hentries.mem_iff.mp hentry) with hentry | hentry
    · obtain ⟨i, hi, rfl⟩ := List.mem_map.mp hentry
      rw [Literal.literal_code]
      exact falsifies_of_value?_eq_none hfalsified
    · rcases h.live entry hentry with hlive | hpending
      · exact Watches.falsifies_eq_false_of_extends (h.gains.extends.trans hbase) hlive
      · exact falsifies_of_value?_eq_none (h.pending _ hpending)

/-- Propagation that keeps every clause watched once ends soundly. -/
theorem Settles.sound (h : Settles clauses p outcome) (hprogress : Progress clauses base a p)
    (hbase : a.Extends base)
    (honce : (outcome.watches.entries.map Prod.snd).Perm (List.range clauses.size)) :
    outcome.Sound clauses base a := by
  induction h with
  | settled => exact ⟨hprogress.valid honce, hprogress.gains, hprogress.entails⟩
  | visited hemptied hmoves _ ih => exact ih ((hprogress.pop hemptied).moves hbase hmoves) honce
  | @abandoned _ _ w' _ a' _ falsified _ front rest clause p hemptied hmoves hfalse _ hentries
      hback =>
    have hlast := (hprogress.pop hemptied).moves hbase hmoves
    obtain ⟨back, hback', hnum, hvalue⟩ := hlast.gains.unassignAll_spec fun _ => Iff.rfl
    rw [hback] at hback'
    cases hback'
    obtain ⟨c, hclause, hfalse⟩ := hfalse
    have hmem := Array.mem_toList_iff.mpr (Array.mem_of_getElem? hclause)
    refine ⟨?_, hnum, hvalue, hlast.entails.refutes (Assignment.refutes_of_falsified hmem hfalse)⟩
    refine hlast.valid_base hbase (hprogress.pending _ List.mem_cons_self) (fun i hi => ?_)
      hentries honce
    exact hprogress.own_bucket hemptied (List.mem_append_right _ hi)

end Soundness

/-- What propagation is to end with, where `base` is the assignment in front of
    the decision and `a` the one it led to. If it settles, the index is valid and
    every new value is forced. If it meets a conflict, nothing satisfies the
    clauses under the decision, the assignment is as it was, and the index is
    valid once the decision is taken back. -/
def Outcome.Correct (clauses : Array Clause) (base a : Assignment) : Outcome → Prop
  | .settled w a' implications =>
    w.Valid clauses a' ∧ w.buckets.size = LiteralCode.tableLength a.numVars ∧
      a.Gains (impliedVars implications) a' ∧ a.Entails clauses.toList a'
  | .conflict _ w a' _ =>
    w.Valid clauses base ∧ w.buckets.size = LiteralCode.tableLength a.numVars ∧
      a' = a ∧ a.Refutes clauses.toList

end Propagation

namespace Watches

variable {w : Watches} {clauses : Array Clause} {base a : Assignment} {l : Literal}

/-- Propagating a decision from a valid index ends soundly, if it ends without a
    fault. -/
theorem propagate_sound {outcome : Propagation.Outcome} (hvalid : w.Valid clauses base)
    (hgains : base.Gains [l.var] a) (hvalue : a.value? l.var = some l.polarity)
    (h : w.propagate l.negate clauses a = .ok outcome) : outcome.Sound clauses base a := by
  have hsettles := Propagation.settles_of_settle h
  exact hsettles.sound (Propagation.progress_start hvalid hgains hvalue) hgains.extends
    (hsettles.indices.trans hvalid.once)

/-- Propagation ends without a fault if the tables cover all variables. -/
theorem propagate_total {falsified : Literal}
    (hrange : ∀ c ∈ clauses, ∀ l ∈ c, l.var.id ≤ a.numVars)
    (hbuckets : w.buckets.size = LiteralCode.tableLength a.numVars)
    (hindex : ∀ i ∈ w.entries.map Prod.snd, i < clauses.size)
    (hfalsified : falsified.var.id ≤ a.numVars) :
    ∃ outcome, w.propagate falsified clauses a = .ok outcome := by
  have hsized : Propagation.Sized clauses a.numVars ⟨w, a, #[], [falsified]⟩ := by
    refine ⟨hbuckets, rfl, hrange, ?_, ?_⟩
    · simp [Propagation.impliedVars]
    · simpa using hfalsified
  exact Propagation.settle_total hsized hindex

/-- Propagating a decision from a valid index ends correctly. -/
theorem propagate_spec (hmax : base.numVars ≤ Variable.maxId)
    (hrange : ∀ c ∈ clauses, ∀ l ∈ c, l.var.id ≤ base.numVars) (hvalid : w.Valid clauses base)
    (hbuckets : w.buckets.size = LiteralCode.tableLength base.numVars)
    (hgains : base.Gains [l.var] a) (hvalue : a.value? l.var = some l.polarity) :
    ∃ outcome, w.propagate l.negate clauses a = .ok outcome ∧
      outcome.Correct clauses base a := by
  rw [← hgains.numVars] at hmax hrange hbuckets
  have hfalsified : l.negate.var.id ≤ a.numVars := by
    rw [Literal.var_negate]
    exact hgains.id_le List.mem_cons_self
  obtain ⟨outcome, hpropagate⟩ := propagate_total hrange hbuckets
    (fun i hi => List.mem_range.mp (hvalid.once.mem_iff.mp hi)) hfalsified
  have hsize := (Propagation.settles_of_settle hpropagate).size.trans hbuckets
  have hsound := propagate_sound hvalid hgains hvalue hpropagate
  refine ⟨outcome, hpropagate, ?_⟩
  cases outcome with
  | settled w' a' implications => exact ⟨hsound.1, hsize, hsound.2⟩
  | conflict clause w' a' implications =>
    obtain ⟨hvalid', hnum, hvalues, hrefutes⟩ := hsound
    exact ⟨hvalid', hsize, Assignment.ext_value? hnum hmax hvalues, hrefutes⟩

end Watches

end Clausal
