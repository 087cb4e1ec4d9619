import Clausal.Preprocess

namespace Clausal

namespace Assignment

theorem fixedCount_le (a : Assignment) : a.fixedCount ≤ a.numVars := Array.countP_le_size

/-- A value for a variable does not change which variables are covered. -/
theorem numVars_assign {a a' : Assignment} {l : Literal} (h : a.assign l = .ok a') :
    a'.numVars = a.numVars := by
  unfold assign set update at h
  split at h
  · cases h; simp [numVars]
  · cases h

/-- A value that is overwritten was a value before, so no variable loses its value. -/
theorem fixedCount_assign {a a' : Assignment} {l : Literal} (h : a.assign l = .ok a') :
    a.fixedCount ≤ a'.fixedCount := by
  unfold assign set update at h
  split at h
  · rename_i hslot
    cases h
    simp only [fixedCount, Array.countP_set hslot, Option.isSome_some, if_true]
    split <;> omega
  · cases h

/-- The first literal is made true and then the others. -/
theorem assignAll_cons (a : Assignment) (l : Literal) (rest : List Literal) :
    a.assignAll (l :: rest) =
      match a.assign l with
      | .error reason => .error reason
      | .ok a => a.assignAll rest := by
  simp only [assignAll, List.foldlM_cons, bind, Except.bind]
  cases a.assign l <;> rfl

/-- Values for several variables do not change which variables are covered. -/
theorem numVars_assignAll {a a' : Assignment} {literals : List Literal}
    (h : a.assignAll literals = .ok a') : a'.numVars = a.numVars := by
  induction literals generalizing a with
  | nil => cases h; rfl
  | cons l rest ih =>
    rw [assignAll_cons] at h
    split at h
    · cases h
    · rename_i hassign
      exact (ih h).trans (numVars_assign hassign)

/-- No variable loses its value when several literals are made true. -/
theorem fixedCount_assignAll {a a' : Assignment} {literals : List Literal}
    (h : a.assignAll literals = .ok a') : a.fixedCount ≤ a'.fixedCount := by
  induction literals generalizing a with
  | nil => cases h; exact Nat.le_refl _
  | cons l rest ih =>
    rw [assignAll_cons] at h
    split at h
    · cases h
    · rename_i hassign
      exact Nat.le_trans (fixedCount_assign hassign) (ih h)

end Assignment

namespace NormalForm

/-- A clause list that loses clauses or literals becomes lighter. -/
theorem weight_filter_eq {clauses : List Clause} {keep : Clause → Bool}
    (h : weight (clauses.filter keep) = weight clauses) : clauses.filter keep = clauses := by
  induction clauses with
  | nil => rfl
  | cons c rest ih =>
    have hle := weight_le_of_sublist (List.filter_sublist (p := keep) (l := rest))
    rw [List.filter_cons] at h ⊢
    split
    · rename_i hkeep
      rw [if_pos hkeep, weight_cons, weight_cons] at h
      rw [ih (by omega)]
    · rename_i hkeep
      rw [if_neg hkeep, weight_cons] at h
      omega

end NormalForm

open NormalForm

namespace Pass

/-- Reducing only drops clauses and literals. -/
theorem weight_reduceClauses_le (clauses : List Clause) (a : Assignment) :
    weight (reduceClauses clauses a) ≤ weight clauses := by
  induction clauses with
  | nil => exact Nat.le_refl _
  | cons c rest ih =>
    have hlength := List.length_filter_le (fun l => !a.falsifies l) c
    unfold reduceClauses at ih ⊢
    rw [List.filterMap_cons, reduceClause]
    split
    · rw [weight_cons]; omega
    · rename_i hsome
      split at hsome
      · cases hsome
      · cases hsome
        rw [weight_cons, weight_cons]; omega

/-- If reducing does not make the clauses lighter, then it has changed nothing. -/
theorem reduceClauses_eq {clauses : List Clause} {a : Assignment}
    (h : weight (reduceClauses clauses a) = weight clauses) :
    reduceClauses clauses a = clauses := by
  induction clauses with
  | nil => rfl
  | cons c rest ih =>
    have hlength := List.length_filter_le (fun l => !a.falsifies l) c
    have hrest := weight_reduceClauses_le rest a
    unfold reduceClauses at ih h hrest ⊢
    rw [List.filterMap_cons, reduceClause] at h ⊢
    split at h
    · rw [weight_cons] at h; omega
    · rename_i hsome
      split at hsome
      · cases hsome
      · rename_i hsatisfies
        cases hsome
        rw [weight_cons, weight_cons] at h
        simp only [List.cons.injEq]
        exact ⟨List.filter_sublist.eq_of_length (by omega), ih (by omega)⟩

/-- What every pass guarantees: no value is taken away, the clauses do not become
    heavier, and clauses that keep their weight either stay as they are or are
    brought into canonical form. -/
structure Descends (r r' : Reduct) : Prop where
  numVars : r'.assignment.numVars = r.assignment.numVars
  fixed : r.assignment.fixedCount ≤ r'.assignment.fixedCount
  weight_le : weight r'.clauses ≤ weight r.clauses
  clauses : weight r'.clauses = weight r.clauses →
    r'.clauses = r.clauses ∨ r'.clauses = Clausal.simplify r.clauses

theorem Descends.refl (r : Reduct) : Descends r r :=
  ⟨rfl, Nat.le_refl _, Nat.le_refl _, fun _ => Or.inl rfl⟩

/-- Two descents in a row are a descent. -/
theorem Descends.trans {r r' r'' : Reduct} (h : Descends r r') (h' : Descends r' r'') :
    Descends r r'' := by
  refine ⟨h'.numVars.trans h.numVars, Nat.le_trans h.fixed h'.fixed,
    Nat.le_trans h'.weight_le h.weight_le, fun hweight => ?_⟩
  have hle := h.weight_le
  have hle' := h'.weight_le
  rcases h.clauses (by omega) with hfirst | hfirst <;>
    rcases h'.clauses (by omega) with hsecond | hsecond
  · exact Or.inl (hsecond.trans hfirst)
  · exact Or.inr (by rw [hsecond, hfirst])
  · exact Or.inr (hsecond.trans hfirst)
  · exact Or.inr (by rw [hsecond, hfirst, simplify_simplify])

/-- Fixing units covers the same variables and takes no value away. -/
theorem numVars_fixUnits {clauses : List Clause} {a a' : Assignment}
    (h : fixUnits clauses a = .ok a') :
    a'.numVars = a.numVars ∧ a.fixedCount ≤ a'.fixedCount := by
  induction clauses generalizing a with
  | nil => cases h; exact ⟨rfl, Nat.le_refl _⟩
  | cons c rest ih =>
    unfold fixUnits at h
    split at h
    · rename_i hunit
      obtain ⟨hnum, hfixed⟩ := ih h
      unfold fixUnit at hunit
      split at hunit
      · split at hunit
        · cases hunit; exact ⟨hnum, hfixed⟩
        · cases hunit
        · split at hunit
          · rename_i hassign
            cases hunit
            exact ⟨hnum.trans (Assignment.numVars_assign hassign),
              Nat.le_trans (Assignment.fixedCount_assign hassign) hfixed⟩
          · cases hunit
      · cases hunit; exact ⟨hnum, hfixed⟩
    · cases h

mutual

/-- Every pass makes clauses lighter or leaves them, and takes no value away. -/
theorem descends_run : ∀ (pass : Pass) {r r' : Reduct}, pass.run r = .ok r' → Descends r r'
  | .unit, ⟨clauses, a⟩, r', h => by
    simp only [run] at h
    split at h
    · rename_i hunits
      cases h
      obtain ⟨hnum, hfixed⟩ := numVars_fixUnits hunits
      exact ⟨hnum, hfixed, Nat.le_refl _, fun _ => Or.inl rfl⟩
    · cases h
  | .pure, ⟨clauses, a⟩, r', h => by
    simp only [run] at h
    split at h
    · rename_i hassign
      cases h
      exact ⟨Assignment.numVars_assignAll hassign, Assignment.fixedCount_assignAll hassign,
        Nat.le_refl _, fun _ => Or.inl rfl⟩
    · cases h
  | .reduce, ⟨clauses, a⟩, r', h => by
    simp only [run] at h
    split at h
    · cases h
    · cases h
      exact ⟨rfl, Nat.le_refl _, weight_reduceClauses_le clauses a,
        fun hweight => Or.inl (reduceClauses_eq hweight)⟩
  | .tautology, ⟨clauses, a⟩, r', h => by
    simp only [run] at h
    cases h
    exact ⟨rfl, Nat.le_refl _, weight_le_of_sublist List.filter_sublist,
      fun hweight => Or.inl (weight_filter_eq hweight)⟩
  | .simplify, ⟨clauses, a⟩, r', h => by
    simp only [run] at h
    cases h
    exact ⟨rfl, Nat.le_refl _, weight_simplify_le clauses, fun _ => Or.inr rfl⟩
  | .chain passes, r, r', h => by
    simp only [run] at h
    exact descends_runAll passes h

/-- Running one pass after the other descends. -/
theorem descends_runAll : ∀ (passes : List Pass) {r r' : Reduct},
    runAll passes r = .ok r' → Descends r r'
  | [], r, r', h => by
    simp only [runAll] at h
    cases h
    exact Descends.refl r
  | pass :: rest, r, r', h => by
    simp only [runAll] at h
    split at h
    · rename_i hpass
      exact (descends_run pass hpass).trans (descends_runAll rest h)
    · cases h

end

/-- Whether a round of reductions has changed anything. -/
def isStable (r r' : Reduct) : Bool :=
  r'.clauses == r.clauses && r'.assignment.fixedCount == r.assignment.fixedCount

/-- A round is stable if it leaves the clauses and the number of values as they are. -/
theorem isStable_iff {r r' : Reduct} :
    isStable r r' = true ↔ r'.clauses = r.clauses ∧
      r'.assignment.fixedCount = r.assignment.fixedCount := by
  simp [isStable]

/-- How far a formula is from being stable under reductions: the variables
    without a value, the weight of the clauses, and whether the clauses are not
    in canonical form, in this order of importance. -/
def distance (r : Reduct) : Nat × Nat × Nat :=
  (r.assignment.numVars - r.assignment.fixedCount, weight r.clauses,
    if Clausal.simplify r.clauses = r.clauses then 0 else 1)

/-- A round that changes something comes closer to the end. -/
theorem distance_decreases {r r' : Reduct} (h : Descends r r') (hchanged : isStable r r' = false) :
    Prod.Lex (· < ·) (Prod.Lex (· < ·) (· < ·)) (distance r') (distance r) := by
  have hnum := h.numVars
  have hfixed := h.fixed
  have hbound := r'.assignment.fixedCount_le
  unfold distance
  by_cases hcount : r'.assignment.fixedCount = r.assignment.fixedCount
  · rw [hcount, hnum]
    apply Prod.Lex.right
    by_cases hweight : weight r'.clauses = weight r.clauses
    · rw [hweight]
      apply Prod.Lex.right
      have hclauses : r'.clauses ≠ r.clauses := by
        intro heq
        simp [isStable, hcount, heq] at hchanged
      have hsimplified := (h.clauses hweight).resolve_left hclauses
      rw [if_pos (by rw [hsimplified, simplify_simplify]),
        if_neg (by rw [← hsimplified]; exact hclauses)]
      exact Nat.zero_lt_one
    · exact Prod.Lex.left _ _ (Nat.lt_of_le_of_ne h.weight_le hweight)
  · apply Prod.Lex.left
    omega

/-- Repeats a pass until a round changes neither the clauses nor the number of
    variables with a value. It ends because every other round gives a variable a
    value, makes the clauses lighter, or brings them into canonical form. -/
def runToFixpoint (pass : Pass) (r : Reduct) : Reduced :=
  match _hrun : pass.run r with
  | .error failure => .error failure
  | .ok r' => if isStable r r' then .ok r' else runToFixpoint pass r'
termination_by distance r
decreasing_by
  rename_i hchanged
  exact distance_decreases (descends_run pass _hrun) (Bool.eq_false_iff.mpr hchanged)

end Pass

end Clausal
