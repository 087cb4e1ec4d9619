import Clausal.Proofs.Search.Run

namespace Clausal

/-- Whether a step is a decision. -/
def Step.isDecision : Step → Bool
  | .skipped => false
  | .decision _ _ => true

namespace Trail

variable {t t' : Trail} {position : Nat} {l : Literal}

/-- The number of decisions on record. -/
def decisionCount (t : Trail) : Nat := t.steps.countP fun record => record.any Step.isDecision

/-- The number of literals that are marked as tried. -/
def triedCount (t : Trail) : Nat := t.tried.count true

/-- Only entries of literals are marked as tried, and not the two in front of
    them. -/
def Labelled (t : Trail) : Prop := ∀ i, t.tried[i]? = some true → ∃ l : Literal, l.code.index = i

/-- The decisions are counted in the records only. -/
theorem decisionCount_congr (h : t'.steps = t.steps) : t'.decisionCount = t.decisionCount := by
  rw [decisionCount, h, decisionCount]

/-- The tried literals are counted in the marks only. -/
theorem triedCount_congr (h : t'.tried = t.tried) : t'.triedCount = t.triedCount := by
  rw [triedCount, h, triedCount]

theorem Labelled.congr (hlabelled : t.Labelled) (h : t'.tried = t.tried) : t'.Labelled := by
  rw [Labelled, h]
  exact hlabelled

/-- There are no more decisions than positions. -/
theorem decisionCount_le (t : Trail) : t.decisionCount ≤ t.steps.size := Array.countP_le_size

/-- A new record adds a decision if it is one. -/
theorem decisionCount_record {step : Step} (h : t.record position step = .ok t')
    (hnone : t.steps[position]? = some none) :
    t'.decisionCount = t.decisionCount + step.isDecision.toNat := by
  obtain ⟨hposition, hrecord⟩ := Array.getElem?_eq_some_iff.mp hnone
  rw [record, dif_pos hposition] at h
  cases h
  rw [decisionCount, Array.countP_set, hrecord, decisionCount]
  cases step <;> rfl

private theorem undo_cases {a a' : Assignment} {decided : Bool}
    (h : t.undo position a = .ok (decided, t', a')) : ∃ hposition : position < t.steps.size,
      t' = { t with steps := t.steps.set position none hposition } ∧
        decided = t.steps[position].any Step.isDecision := by
  unfold undo at h
  split at h
  · rename_i hposition
    refine ⟨hposition, ?_⟩
    dsimp only at h
    split at h
    · rename_i hstep
      simp only [bind, Except.bind] at h
      split at h
      · cases h
      · split at h
        · cases h
        · cases h
          rw [hstep]
          exact ⟨rfl, rfl⟩
    · rename_i hstep
      cases h
      refine ⟨rfl, ?_⟩
      cases hrecord : t.steps[position] with
      | none => rfl
      | some step =>
        cases step with
        | skipped => rfl
        | decision l implied => exact absurd hrecord (hstep l implied)
  · cases h

/-- Undoing a position removes its record, which counts if it was a decision. -/
theorem decisionCount_undo {a a' : Assignment} {decided : Bool}
    (h : t.undo position a = .ok (decided, t', a')) :
    t.decisionCount = t'.decisionCount + decided.toNat := by
  obtain ⟨hposition, rfl, hdecided⟩ := undo_cases h
  have hle := Array.boole_getElem_le_countP (p := fun record => record.any Step.isDecision)
    hposition
  rw [decisionCount, decisionCount, Array.countP_set]
  rw [← hdecided] at hle ⊢
  cases decided with
  | false => rfl
  | true =>
    rw [if_pos rfl] at hle ⊢
    exact (Nat.sub_add_cancel hle).symm

/-- Setting a mark that was not set adds one, and removing one takes one away. -/
theorem triedCount_setTried {mark : Bool} (h : t.setTried l mark = .ok t')
    (hl : t.isTried l = !mark) : t'.triedCount + (!mark).toNat = t.triedCount + mark.toNat := by
  unfold setTried at h
  split at h
  · rename_i hindex
    cases h
    rw [isTried, dif_pos hindex] at hl
    have hle := Array.boole_getElem_le_count (a := true) hindex
    rw [triedCount, triedCount, Array.count_set, hl]
    rw [hl] at hle
    cases mark with
    | false =>
      simp only [Bool.not_false, beq_self_eq_true, if_true] at hle
      simp only [Bool.not_false, beq_self_eq_true, if_true, Bool.toNat_true, Bool.toNat_false,
        beq_iff_eq, Bool.false_eq_true, if_false]
      omega
    | true => simp
  · cases h

/-- Setting or removing a mark keeps the marks in their places. -/
theorem Labelled.setTried (hlabelled : t.Labelled) {mark : Bool}
    (h : t.setTried l mark = .ok t') : t'.Labelled := by
  intro i hi
  unfold Trail.setTried at h
  split at h
  · cases h
    rw [Array.getElem?_set] at hi
    split at hi
    · exact ⟨l, ‹_›⟩
    · exact hlabelled i hi
  · cases h

/-- Clearing a variable whose literals have both been tried removes two marks. -/
theorem triedCount_clearTried {v : Variable} (h : t.clearTried v = .ok t')
    (hboth : ∀ l : Literal, l.var = v → t.isTried l = true) :
    t.triedCount = t'.triedCount + 2 := by
  unfold clearTried at h
  split at h
  · cases h
  · rename_i middle hfirst
    have hne : v.literal false ≠ v.literal true := by
      intro heq
      simpa using congrArg Literal.polarity heq
    have hsecond : middle.isTried (v.literal false) = true := by
      rw [isTried_setTried hfirst, if_neg hne, hboth _ (Variable.var_literal v false)]
    have hcount := triedCount_setTried hfirst (hboth _ (Variable.var_literal v true))
    have hcount' := triedCount_setTried h hsecond
    simp only [Bool.not_false, Bool.toNat_true, Bool.toNat_false] at hcount hcount'
    omega

/-- Clearing the marks of a variable keeps the others in their places. -/
theorem Labelled.clearTried (hlabelled : t.Labelled) {v : Variable}
    (h : t.clearTried v = .ok t') : t'.Labelled := by
  unfold Trail.clearTried at h
  split at h
  · cases h
  · rename_i middle hfirst
    exact (hlabelled.setTried hfirst).setTried h

/-- If no literal has been tried, then no mark is counted. -/
theorem Labelled.triedCount_eq_zero (hlabelled : t.Labelled) (h : ∀ l, t.isTried l ≠ true) :
    t.triedCount = 0 := by
  apply Array.count_eq_zero.mpr
  intro hmem
  obtain ⟨i, hi⟩ := Array.mem_iff_getElem?.mp hmem
  obtain ⟨l, rfl⟩ := hlabelled i hi
  obtain ⟨hindex, hmark⟩ := Array.getElem?_eq_some_iff.mp hi
  apply h l
  rw [isTried, dif_pos hindex, hmark]

end Trail

namespace Search

section Rewinding

variable {position : Nat} {t t' : Trail} {a a' : Assignment}

/-- Rewinding removes one decision from the record if it stops at one, and none
    otherwise. -/
theorem decisionCount_rewind {stop : Option Nat} (h : rewind position t a = .ok (stop, t', a')) :
    t.decisionCount = t'.decisionCount + stop.isSome.toNat := by
  induction position generalizing t a with
  | zero =>
    cases h
    rfl
  | succ position ih =>
    unfold rewind at h
    split at h
    · cases h
    · rename_i hundo
      cases h
      exact Trail.decisionCount_undo hundo
    · rename_i hundo
      rw [Trail.decisionCount_undo hundo]
      exact ih h

/-- Rewinding goes on to the start only if there is no decision to stop at. -/
theorem not_decision_of_rewind (h : rewind position t a = .ok (none, t', a')) {i : Nat}
    (hi : i < position) {l : Literal} {implied : List Variable} :
    t.steps[i]? ≠ some (some (.decision l implied)) := by
  induction position generalizing t a with
  | zero => cases hi
  | succ position ih =>
    unfold rewind at h
    split at h
    · cases h
    · cases h
    · rename_i hundo
      by_cases heq : i = position
      · subst heq
        intro hdecision
        obtain ⟨_, _, hother⟩ := Trail.undo_cases hundo
        obtain ⟨_, hstep⟩ := Array.getElem?_eq_some_iff.mp hdecision
        rw [hstep] at hother
        cases hother
      · rw [← Trail.undo_steps hundo i heq]
        exact ih h (by omega)

end Rewinding

/-- How the counters agree with the trail. A decision has failed, or has been taken
    back, or is on record; and its literal is marked as tried, or has been cleared
    together with its complement when an earlier decision was taken back. -/
structure Balanced (s : State) : Prop where
  records : s.stats.decisions = s.stats.conflicts + s.stats.backtracks + s.trail.decisionCount
  marks : s.stats.decisions = 2 * s.stats.backtracks + s.trail.triedCount
  labelled : s.trail.Labelled

variable {p : Problem} {fixed : Assignment} {s s' : State}

/-- At the start there is nothing on either side of the balance. -/
theorem balanced_start (p : Problem) (numVars : Nat) (a : Assignment) (w : Watches) (count : Nat) :
    Balanced (start p numVars a w count) := by
  refine ⟨?_, ?_, fun i hi => ?_⟩
  · simp [start, Trail.blank, Trail.decisionCount, Array.countP_replicate]
  · simp [start, Trail.blank, Trail.triedCount, Array.count_replicate]
  · simp [start, Trail.blank, Array.getElem?_replicate] at hi

variable {move : Move}

private theorem Balanced.skip (h : Balanced s) (hnone : s.trail.steps[s.position]? = some none)
    (hskip : skip s = .ok (.moved move s')) : Balanced s' := by
  obtain ⟨trail, hrecord, heq⟩ := skip_cases hskip
  cases heq
  have hcount := Trail.decisionCount_record hrecord hnone
  have htried := Trail.tried_record hrecord
  refine ⟨?_, ?_, h.labelled.congr htried⟩
  · dsimp only
    rw [hcount]
    exact h.records
  · dsimp only
    rw [Trail.triedCount_congr htried]
    exact h.marks

private theorem Balanced.attempt (h : Balanced s) (hnone : s.trail.steps[s.position]? = some none)
    {l : Literal} (huntried : s.trail.isTried l = false)
    (hattempt : attempt p l s = .ok (.moved move s')) : Balanced s' := by
  obtain ⟨hrecords, hmarks, hlabelled⟩ := h
  obtain ⟨marked, hmark, hresult⟩ := attempt_cases hattempt
  have hsteps := Trail.steps_setTried hmark
  have hmarked : marked.triedCount = s.trail.triedCount + 1 :=
    Trail.triedCount_setTried hmark huntried
  obtain ⟨_, _, _, trail, hrecord, heq⟩ | ⟨_, _, _, _, heq⟩ := hresult
  · cases heq
    have hcount : trail.decisionCount = marked.decisionCount + 1 :=
      Trail.decisionCount_record hrecord (by rw [hsteps]; exact hnone)
    have htried := Trail.tried_record hrecord
    refine ⟨?_, ?_, (hlabelled.setTried hmark).congr htried⟩
    · dsimp only
      rw [hcount, Trail.decisionCount_congr hsteps]
      omega
    · dsimp only
      rw [Trail.triedCount_congr htried]
      omega
  · cases heq
    refine ⟨?_, ?_, hlabelled.setTried hmark⟩
    · dsimp only
      rw [Trail.decisionCount_congr hsteps]
      omega
    · dsimp only
      omega

private theorem Balanced.retreat (h : Balanced s) {v : Variable}
    (hboth : ∀ l : Literal, l.var = v → s.trail.isTried l = true)
    (hretreat : retreat v s = .ok (.moved move s')) : Balanced s' := by
  obtain ⟨hrecords, hmarks, hlabelled⟩ := h
  obtain ⟨cleared, hclear, ⟨_, _, _, heq⟩ | ⟨stop, trail, assignment, hrewind, heq⟩⟩ :=
    retreat_cases hretreat
  · cases heq
  · cases heq
    have hcount : cleared.decisionCount = trail.decisionCount + 1 := decisionCount_rewind hrewind
    rw [Trail.decisionCount_congr (Trail.steps_clearTried hclear)] at hcount
    have hcleared := Trail.triedCount_clearTried hclear hboth
    have htried := (rewind_spec hrewind).2.1
    refine ⟨?_, ?_, (hlabelled.clearTried hclear).congr htried⟩
    · dsimp only
      omega
    · dsimp only
      rw [Trail.triedCount_congr htried]
      omega

/-- A round that does not end the search keeps the counters in agreement with the
    trail. -/
theorem Balanced.step (hbalanced : Balanced s) (h : Invariant p fixed s)
    (hstep : step p s = .ok (.moved move s')) : Balanced s' := by
  obtain hend | ⟨v, hv, hcases⟩ := step_cases hstep
  · cases hend
  · have hnone := h.unvisited s.position (Nat.le_refl _) (Array.getElem?_eq_some_iff.mp hv).1
    obtain ⟨_, hskip⟩ | ⟨l, _, huntried, hattempt⟩ | ⟨hboth, hretreat⟩ := hcases
    · exact hbalanced.skip hnone hskip
    · exact hbalanced.attempt hnone huntried hattempt
    · exact hbalanced.retreat hboth hretreat

/-- The balance holds at the head of every round that a search comes to. -/
theorem Visits.balanced {origin : State} (hp : WellPosed p fixed) (h : Invariant p fixed origin)
    (hbalanced : Balanced origin) (hvisits : Visits p origin s) : Balanced s := by
  induction hvisits with
  | start => exact hbalanced
  | next hvisits hstep ih => exact ih.step (hvisits.invariant hp h) hstep

/-- There is at most one decision on record for every position. -/
theorem Balanced.bounded (hbalanced : Balanced s) (h : Invariant p fixed s) :
    s.stats.conflicts + s.stats.backtracks ≤ s.stats.decisions ∧
      s.stats.decisions - s.stats.conflicts - s.stats.backtracks ≤ p.order.size := by
  have hrecords := hbalanced.records
  have hle := s.trail.decisionCount_le
  rw [h.steps] at hle
  rw [BranchOrder.size]
  omega

section Exhaustion

variable {v : Variable} {cleared trail : Trail} {assignment : Assignment}

/-- When there is nothing to take back, all positions in front have been passed
    over. -/
private theorem Invariant.skipped_of_rewind (h : Invariant p fixed s)
    (hclear : s.trail.clearTried v = .ok cleared)
    (hrewind : rewind s.position cleared s.assignment = .ok (none, trail, assignment)) {i : Nat}
    (hi : i < s.position) : s.trail.steps[i]? = some (some .skipped) := by
  obtain ⟨step, hstep⟩ := h.path.recorded hi
  cases step with
  | skipped => exact hstep
  | decision l implied =>
    rw [← Trail.steps_clearTried hclear] at hstep
    exact absurd hstep (not_decision_of_rewind hrewind hi)

private theorem Invariant.decisionCount_eq_zero (h : Invariant p fixed s)
    (hskipped : ∀ i < s.position, s.trail.steps[i]? = some (some .skipped)) :
    s.trail.decisionCount = 0 := by
  apply Array.countP_eq_zero.mpr
  intro record hrecord
  obtain ⟨i, hi⟩ := Array.mem_iff_getElem?.mp hrecord
  rcases Nat.lt_or_ge i s.position with hlt | hge
  · rw [hskipped i hlt] at hi
    cases hi
    exact Bool.false_ne_true
  · have hsize : i < p.order.vars.size := by
      rw [← h.steps]
      exact (Array.getElem?_eq_some_iff.mp hi).1
    rw [h.unvisited i hge hsize] at hi
    cases hi
    exact Bool.false_ne_true

private theorem Invariant.untried_of_skipped (h : Invariant p fixed s) (hp : WellPosed p fixed)
    (hv : p.order.vars[s.position]? = some v) (hclear : s.trail.clearTried v = .ok cleared)
    (hskipped : ∀ i < s.position, s.trail.steps[i]? = some (some .skipped)) (l : Literal) :
    cleared.isTried l ≠ true := by
  obtain ⟨_, hclear', hsteps, _, hmarks⟩ :=
    Trail.clearTried_spec h.tried (hp.order v (Array.mem_of_getElem? hv))
  obtain rfl := Except.ok.inj (hclear'.symm.trans hclear)
  obtain ⟨hpath, hfront⟩ := h.unmarked hv hsteps hmarks
  intro hl
  obtain ⟨i, hi, hil⟩ := hfront l hl
  rw [hpath.untried_of_skipped hi (by rw [hsteps]; exact hskipped i hi) hil] at hl
  cases hl

/-- When there is nothing to take back, no decision is on record, and the only marks
    are those of the two literals at the current position. -/
theorem Balanced.exhausted (hbalanced : Balanced s) (hp : WellPosed p fixed)
    (h : Invariant p fixed s) (hstep : Search.step p s = .ok (.finished .unsatisfiable s')) :
    s'.stats.decisions = 2 * s'.stats.backtracks + 2 ∧
      s'.stats.conflicts = s'.stats.backtracks + 2 := by
  obtain ⟨hsatisfiable, _⟩ | ⟨_, v, cleared, trail, assignment, hv, hboth, hclear, hrewind, rfl⟩ :=
    finished_cases hstep
  · cases hsatisfiable
  · obtain ⟨hrecords, hmarks, hlabelled⟩ := hbalanced
    have hskipped : ∀ i < s.position, s.trail.steps[i]? = some (some .skipped) :=
      fun i hi => h.skipped_of_rewind hclear hrewind hi
    have hdecisions := h.decisionCount_eq_zero hskipped
    -- A mark that clearing the position leaves would be at a position in front, and
    -- nothing is tried at a position that is passed over.
    have hcleared := Trail.triedCount_clearTried hclear hboth
    rw [(hlabelled.clearTried hclear).triedCount_eq_zero
      (h.untried_of_skipped hp hv hclear hskipped)] at hcleared
    dsimp only
    omega

end Exhaustion

end Search

end Clausal
