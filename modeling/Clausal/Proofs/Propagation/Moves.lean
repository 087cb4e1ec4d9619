import Clausal.Proofs.Valuation
import Clausal.Proofs.Watches.Entries

namespace Clausal

namespace WatchChoice

private theorem second_spec {a : Assignment} {first : Literal} (rest : List Literal)
    (hfirst : a.value? first.var = none) :
    match second a first rest with
    | .live l => (l = first ∨ l ∈ rest) ∧ a.falsifies l = false
    | .implied l => l = first ∧ ∀ m ∈ rest, m = first ∨ a.falsifies m = true
    | .nowhere => False := by
  have hnone := Assignment.literalValue?_eq_none.mpr hfirst
  induction rest with
  | nil => simp [second]
  | cons m rest ih =>
    cases hvalue : a.literalValue? m with
    | none =>
      by_cases hm : m = first
      · simp only [second, hvalue, if_pos hm]
        revert ih
        cases second a first rest with
        | live l => simp +contextual [hm]
        | implied l => simp +contextual [hm]
        | nowhere => exact fun h => h
      · simp [second, hvalue, hm, Assignment.falsifies, hnone]
    | some b =>
      cases b with
      | true => simp [second, hvalue, Assignment.falsifies]
      | false =>
        have hfalse : a.falsifies m = true := by simp [Assignment.falsifies, hvalue]
        simp only [second, hvalue]
        revert ih
        cases second a first rest with
        | live l => exact fun h => ⟨h.1.imp_right (List.mem_cons_of_mem m), h.2⟩
        | implied l => exact fun h => ⟨h.1, List.forall_mem_cons.mpr ⟨Or.inr hfalse, h.2⟩⟩
        | nowhere => exact fun h => h

/-- A chosen watch is a literal of the clause that is not false. It is implied if
    all others are false, and there is none if every literal is false. -/
theorem of_spec (a : Assignment) (c : Clause) :
    match of a c with
    | .live l => l ∈ c ∧ a.falsifies l = false
    | .implied l => l ∈ c ∧ a.value? l.var = none ∧ ∀ m ∈ c, m = l ∨ a.falsifies m = true
    | .nowhere => ∀ m ∈ c, a.falsifies m = true := by
  induction c with
  | nil => simp [of]
  | cons l rest ih =>
    cases hvalue : a.literalValue? l with
    | none =>
      have hnone := Assignment.literalValue?_eq_none.mp hvalue
      have hsecond := second_spec rest hnone
      simp only [of, hvalue]
      revert hsecond
      cases second a l rest with
      | live m => exact fun h => ⟨List.mem_cons.mpr h.1, h.2⟩
      | implied m =>
        rintro ⟨rfl, hrest⟩
        exact ⟨List.mem_cons_self, hnone, List.forall_mem_cons.mpr ⟨Or.inl rfl, hrest⟩⟩
      | nowhere => exact False.elim
    | some b =>
      cases b with
      | true => simp [of, hvalue, Assignment.falsifies]
      | false =>
        have hfalse : a.falsifies l = true := by simp [Assignment.falsifies, hvalue]
        simp only [of, hvalue]
        revert ih
        cases of a rest with
        | live m => exact fun h => ⟨List.mem_cons_of_mem l h.1, h.2⟩
        | implied m =>
          exact fun h => ⟨List.mem_cons_of_mem l h.1, h.2.1,
            List.forall_mem_cons.mpr ⟨Or.inr hfalse, h.2.2⟩⟩
        | nowhere => exact fun h => List.forall_mem_cons.mpr ⟨hfalse, h⟩

end WatchChoice

namespace Propagation

/-- How a clause that has lost its watch finds a new one: by a literal that is
    not false, or by its last literal, which becomes true. -/
inductive Moved (clauses : Array Clause) (clause : Nat) : Propagation → Propagation → Prop
  | live {p : Propagation} {c : Clause} {l : Literal} {w : Watches}
      (hclause : clauses[clause]? = some c) (hmem : l ∈ c)
      (hlive : p.assignment.falsifies l = false)
      (hsize : w.buckets.size = p.watches.buckets.size)
      (hentries : w.entries.Perm ((l.code, clause) :: p.watches.entries)) :
      Moved clauses clause p ⟨w, p.assignment, p.implications, p.pending⟩
  | implied {p : Propagation} {c : Clause} {l : Literal} {w : Watches} {a : Assignment}
      (hclause : clauses[clause]? = some c) (hmem : l ∈ c)
      (hothers : ∀ m ∈ c, m = l ∨ p.assignment.falsifies m = true)
      (hgains : p.assignment.Gains [l.var] a) (hvalue : a.value? l.var = some l.polarity)
      (hsize : w.buckets.size = p.watches.buckets.size)
      (hentries : w.entries.Perm ((l.code, clause) :: p.watches.entries)) :
      Moved clauses clause p ⟨w, a, p.implications.push (clause, l), l.negate :: p.pending⟩

/-- Several clauses find new watches, one after the other. -/
inductive Moves (clauses : Array Clause) : List Nat → Propagation → Propagation → Prop
  | nil (p : Propagation) : Moves clauses [] p p
  | cons {clause : Nat} {rest : List Nat} {p p' p'' : Propagation}
      (hfirst : Moved clauses clause p p') (hrest : Moves clauses rest p' p'') :
      Moves clauses (clause :: rest) p p''

/-- A clause that is moved has its index in the buckets again. -/
theorem Moves.indices {clauses : Array Clause} {bucket : List Nat} {p p' : Propagation}
    (h : Moves clauses bucket p p') :
    (p'.watches.entries.map Prod.snd).Perm (bucket ++ p.watches.entries.map Prod.snd) := by
  induction h with
  | nil p => exact List.Perm.refl _
  | cons hfirst _ ih =>
    cases hfirst with
    | live _ _ _ _ hentries =>
      exact ih.trans (((hentries.map Prod.snd).append_left _).trans List.perm_middle)
    | implied _ _ _ _ _ _ hentries =>
      exact ih.trans (((hentries.map Prod.snd).append_left _).trans List.perm_middle)

/-- Moves add no bucket and drop none. -/
theorem Moves.size {clauses : Array Clause} {bucket : List Nat} {p p' : Propagation}
    (h : Moves clauses bucket p p') :
    p'.watches.buckets.size = p.watches.buckets.size := by
  induction h with
  | nil _ => rfl
  | cons hfirst _ ih =>
    cases hfirst with
    | live _ _ _ hsize _ => exact ih.trans hsize
    | implied _ _ _ _ _ hsize _ => exact ih.trans hsize

/-- The tables of a propagation cover the variables 1 to `numVars`, and neither the
    clauses nor the literals met so far belong to others. -/
structure Sized (clauses : Array Clause) (numVars : Nat) (p : Propagation) : Prop where
  buckets : p.watches.buckets.size = LiteralCode.tableLength numVars
  assignment : p.assignment.numVars = numVars
  literals : ∀ c ∈ clauses, ∀ l ∈ c, l.var.id ≤ numVars
  implied : ∀ v ∈ impliedVars p.implications, v.id ≤ numVars
  pending : ∀ l ∈ p.pending, l.var.id ≤ numVars

section Sizes

variable {clauses : Array Clause} {clause numVars : Nat} {p p' : Propagation} {c : Clause}
  {l : Literal}

/-- The literals of a clause are over covered variables. -/
theorem Sized.id_le (hp : Sized clauses numVars p) (hclause : clauses[clause]? = some c)
    (hl : l ∈ c) : l.var.id ≤ numVars :=
  hp.literals c (Array.mem_of_getElem? hclause) l hl

/-- There is a bucket for every literal of a clause. -/
theorem Sized.exists_push (hp : Sized clauses numVars p) (hclause : clauses[clause]? = some c)
    (hl : l ∈ c) : ∃ w, p.watches.push l clause = .ok w := by
  obtain ⟨w, hpush, _⟩ := Watches.push_spec (w := p.watches) (l := l)
    (by rw [hp.buckets]; exact Literal.code_index_lt (hp.id_le hclause hl)) clause
  exact ⟨w, hpush⟩

/-- Every literal of a clause can be made true. -/
theorem Sized.exists_assign (hp : Sized clauses numVars p) (hclause : clauses[clause]? = some c)
    (hl : l ∈ c) : ∃ a, p.assignment.assign l = .ok a := by
  obtain ⟨a, hassign, _⟩ := Assignment.assign_spec (a := p.assignment) (l := l)
    (by rw [hp.assignment]; exact hp.id_le hclause hl)
  exact ⟨a, hassign⟩

/-- A move keeps the sizes of the tables. -/
theorem Moved.sized (h : Moved clauses clause p p') (hp : Sized clauses numVars p) :
    Sized clauses numVars p' := by
  cases h with
  | live _ _ _ hsize _ =>
    exact ⟨hsize.trans hp.buckets, hp.assignment, hp.literals, hp.implied, hp.pending⟩
  | @implied c l _ _ hclause hmem _ hgains _ hsize _ =>
    have hl := hp.id_le hclause hmem
    refine ⟨hsize.trans hp.buckets, hgains.numVars.trans hp.assignment, hp.literals, ?_, ?_⟩
    · intro v hv
      simp only [impliedVars, Array.toList_push, List.map_append, List.mem_append, List.map_cons,
        List.map_nil, List.mem_singleton] at hv
      rcases hv with hv | rfl
      · exact hp.implied v hv
      · exact hl
    · refine List.forall_mem_cons.mpr ⟨?_, hp.pending⟩
      rwa [Literal.var_negate]

/-- Moves keep the sizes of the tables. -/
theorem Moves.sized {bucket : List Nat} (h : Moves clauses bucket p p')
    (hp : Sized clauses numVars p) : Sized clauses numVars p' := by
  induction h with
  | nil _ => exact hp
  | cons hfirst _ ih => exact ih (hfirst.sized hp)

end Sizes

/-- The assignment makes every literal of the clause with this index false. -/
def Falsified (clauses : Array Clause) (a : Assignment) (clause : Nat) : Prop :=
  ∃ c, clauses[clause]? = some c ∧ ∀ l ∈ c, a.falsifies l = true

/-- The first clause of a bucket finds a new watch, and the visit goes on, or it is
    false, and the visit ends. A fault only happens if the tables are too small or
    there is no such clause. -/
private theorem visit_cons (clauses : Array Clause) (clause : Nat) (rest : List Nat)
    (p : Propagation) :
    (∃ p', Moved clauses clause p p' ∧
        visit clauses (clause :: rest) p = visit clauses rest p') ∨
      (visit clauses (clause :: rest) p = .ok (.conflict clause rest p) ∧
        Falsified clauses p.assignment clause) ∨
      (∃ failure, visit clauses (clause :: rest) p = .error failure) ∧
        ∀ numVars, Sized clauses numVars p → clauses.size ≤ clause := by
  obtain ⟨w, a, implications, pending⟩ := p
  cases hclause : clauses[clause]? with
  | none =>
    refine .inr (.inr ⟨⟨⟨.outOfRange, implications⟩, ?_⟩, fun _ _ => ?_⟩)
    · simp only [visit, hclause]
    · exact Array.getElem?_eq_none_iff.mp hclause
  | some c =>
    have hchoice := WatchChoice.of_spec a c
    match hof : WatchChoice.of a c with
    | .nowhere =>
      rw [hof] at hchoice
      refine .inr (.inl ⟨?_, c, hclause, hchoice⟩)
      simp only [visit, hclause, hof]
    | .live l =>
      rw [hof] at hchoice
      obtain ⟨hmem, hlive⟩ := hchoice
      match hpush : w.push l clause with
      | .ok w' =>
        obtain ⟨hsize, hentries⟩ := Watches.of_push hpush
        refine .inl ⟨_, .live hclause hmem hlive hsize hentries, ?_⟩
        simp only [visit, hclause, hof, hpush]
      | .error reason =>
        refine .inr (.inr ⟨⟨⟨reason, implications⟩, ?_⟩, fun numVars hp => ?_⟩)
        · simp only [visit, hclause, hof, hpush]
        · obtain ⟨w', hpush'⟩ := hp.exists_push hclause hmem
          rw [hpush] at hpush'
          cases hpush'
    | .implied l =>
      rw [hof] at hchoice
      obtain ⟨hmem, hnone, hothers⟩ := hchoice
      match hassign : a.assign l with
      | .error reason =>
        refine .inr (.inr ⟨⟨⟨reason, implications.push (clause, l)⟩, ?_⟩, fun numVars hp => ?_⟩)
        · simp only [visit, hclause, hof, hassign]
        · obtain ⟨a', hassign'⟩ := hp.exists_assign hclause hmem
          rw [hassign] at hassign'
          cases hassign'
      | .ok a' =>
        match hpush : w.push l clause with
        | .ok w' =>
          obtain ⟨hsize, hentries⟩ := Watches.of_push hpush
          obtain ⟨hgains, hvalue⟩ := Assignment.gains_of_assign hassign hnone
          refine .inl ⟨_, .implied hclause hmem hothers hgains hvalue hsize hentries, ?_⟩
          simp only [visit, hclause, hof, hassign, hpush]
        | .error reason =>
          refine .inr (.inr ⟨⟨⟨reason, implications.push (clause, l)⟩, ?_⟩, fun numVars hp => ?_⟩)
          · simp only [visit, hclause, hof, hassign, hpush]
          · obtain ⟨w', hpush'⟩ := hp.exists_push hclause hmem
            rw [hpush] at hpush'
            cases hpush'

/-- What the visit of a bucket has come to: its clauses have found new watches, up
    to the first that is false. -/
def Visit.Reached (clauses : Array Clause) (bucket : List Nat) (p : Propagation) : Visit → Prop
  | .done p' => Moves clauses bucket p p'
  | .conflict clause rest p' => ∃ front, bucket = front ++ clause :: rest ∧
      Moves clauses front p p' ∧ Falsified clauses p'.assignment clause

section Visits

variable {clauses : Array Clause} {bucket : List Nat} {numVars : Nat} {p : Propagation}

/-- What a visit ends with is reached by moves. -/
theorem visit_reached {result : Visit} (h : visit clauses bucket p = .ok result) :
    Visit.Reached clauses bucket p result := by
  induction bucket generalizing p with
  | nil =>
    cases h
    exact .nil p
  | cons clause rest ih =>
    obtain ⟨p', hmoved, hvisit⟩ | ⟨hvisit, hfalse⟩ | ⟨⟨failure, hvisit⟩, _⟩ :=
      visit_cons clauses clause rest p
    · rw [hvisit] at h
      have hrest := ih h
      cases result with
      | done p'' => exact .cons hmoved hrest
      | conflict clause' rest' p'' =>
        obtain ⟨front, rfl, hmoves, hfalse⟩ := hrest
        exact ⟨clause :: front, rfl, .cons hmoved hmoves, hfalse⟩
    · rw [hvisit] at h
      cases h
      exact ⟨[], rfl, .nil p, hfalse⟩
    · rw [hvisit] at h
      cases h

/-- With tables that are large enough, the visit of a bucket goes through. -/
theorem visit_total (hp : Sized clauses numVars p) (hindex : ∀ i ∈ bucket, i < clauses.size) :
    ∃ result, visit clauses bucket p = .ok result := by
  induction bucket generalizing p with
  | nil => exact ⟨.done p, rfl⟩
  | cons clause rest ih =>
    obtain ⟨hfirst, hindex⟩ := List.forall_mem_cons.mp hindex
    obtain ⟨p', hmoved, hvisit⟩ | ⟨hvisit, _⟩ | ⟨_, hsize⟩ := visit_cons clauses clause rest p
    · obtain ⟨result, hrest⟩ := ih (hmoved.sized hp) hindex
      exact ⟨result, hvisit.trans hrest⟩
    · exact ⟨_, hvisit⟩
    · exact absurd (hsize numVars hp) (Nat.not_le.mpr hfirst)

end Visits

end Propagation

end Clausal
