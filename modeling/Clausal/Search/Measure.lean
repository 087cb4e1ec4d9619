import Clausal.Search.Rounds

namespace Clausal

namespace Trail

/-- After a mark is written, the literal has it and every other literal keeps
    its own. -/
theorem isTried_setTried {t t' : Trail} {l : Literal} {mark : Bool}
    (h : t.setTried l mark = .ok t') (m : Literal) :
    t'.isTried m = if m = l then mark else t.isTried m := by
  unfold setTried at h
  split at h
  · rename_i hl
    cases h
    by_cases hm : m = l
    · subst hm
      simp [isTried, hl]
    · have hne : ¬ l.code.index = m.code.index := fun he =>
        hm (Literal.code_index_inj.mp he).symm
      simp only [isTried, Array.size_set, if_neg hm]
      split
      · rw [Array.getElem_set_ne _ _ hne]
      · rfl
  · cases h

/-- Marks are kept apart from records. -/
theorem steps_setTried {t t' : Trail} {l : Literal} {mark : Bool}
    (h : t.setTried l mark = .ok t') : t'.steps = t.steps := by
  unfold setTried at h
  split at h
  · cases h; rfl
  · cases h

/-- Clearing removes the marks of one variable and keeps those of the others. -/
theorem isTried_clearTried {t t' : Trail} {v : Variable} (h : t.clearTried v = .ok t')
    (m : Literal) (hm : m.var ≠ v) : t'.isTried m = t.isTried m := by
  unfold clearTried at h
  split at h
  · cases h
  · rename_i hfirst
    have hne (b : Bool) : m ≠ v.literal b := by
      rintro rfl
      exact hm (Variable.var_literal v b)
    rw [isTried_setTried h, isTried_setTried hfirst, if_neg (hne _), if_neg (hne _)]

/-- Clearing marks changes no record. -/
theorem steps_clearTried {t t' : Trail} {v : Variable} (h : t.clearTried v = .ok t') :
    t'.steps = t.steps := by
  unfold clearTried at h
  split at h
  · cases h
  · rename_i hfirst
    rw [steps_setTried h, steps_setTried hfirst]

/-- Writing a record changes that record only. -/
theorem steps_record {t t' : Trail} {position : Nat} {step : Step}
    (h : t.record position step = .ok t') (i : Nat) :
    t'.steps[i]? = if i = position then some (some step) else t.steps[i]? := by
  unfold record at h
  split at h
  · rename_i hposition
    cases h
    by_cases hi : i = position
    · subst hi; simp [hposition]
    · simp [hi, Array.getElem?_set_ne, Ne.symm hi]
  · cases h

/-- Writing a record changes no mark. -/
theorem tried_record {t t' : Trail} {position : Nat} {step : Step}
    (h : t.record position step = .ok t') : t'.tried = t.tried := by
  unfold record at h
  split at h
  · cases h; rfl
  · cases h

/-- Whether a literal has been tried is read off the marks. -/
theorem isTried_congr {t t' : Trail} (h : t'.tried = t.tried) (l : Literal) :
    t'.isTried l = t.isTried l := by
  simp [isTried, h]

/-- How many literals of a variable are not marked as tried. -/
def untried (t : Trail) (v : Variable) : Nat :=
  (if t.isTried (v.literal true) then 0 else 1) + (if t.isTried (v.literal false) then 0 else 1)

/-- A variable has two literals to try. -/
theorem untried_le (t : Trail) (v : Variable) : t.untried v ≤ 2 := by
  unfold untried; split <;> split <;> omega

/-- Both literals are left if none has been tried. -/
theorem untried_of_not_anyTried {t : Trail} {v : Variable} (h : t.anyTried v = false) :
    t.untried v = 2 := by
  simp_all [anyTried, untried]

/-- The marks of other variables do not count. -/
theorem untried_congr {t t' : Trail} {v : Variable}
    (h : ∀ l : Literal, l.var = v → t'.isTried l = t.isTried l) : t'.untried v = t.untried v := by
  simp [untried, h]

/-- Marking a literal that was not tried leaves one fewer. -/
theorem untried_markTried {t t' : Trail} {l : Literal} (h : t.markTried l = .ok t')
    (hl : t.isTried l = false) : t'.untried l.var + 1 = t.untried l.var := by
  have hsame := Literal.literal_var l
  have hother : l.var.literal (!l.polarity) ≠ l := by
    intro heq
    simpa using congrArg Literal.polarity heq
  unfold markTried at h
  simp only [untried, isTried_setTried h]
  cases hpolarity : l.polarity with
  | true =>
    rw [hpolarity] at hsame hother
    simp only [Bool.not_true] at hother
    rw [hsame, if_neg hother]
    simp [hl]
    omega
  | false =>
    rw [hpolarity] at hsame hother
    simp only [Bool.not_false] at hother
    rw [hsame, if_neg hother]
    simp [hl]

/-- Taking a record back changes no other record. -/
theorem undo_steps {t t' : Trail} {position : Nat} {a a' : Assignment} {b : Bool}
    (h : t.undo position a = .ok (b, t', a')) (i : Nat) (hi : i ≠ position) :
    t'.steps[i]? = t.steps[i]? := by
  unfold undo at h
  split at h
  · dsimp only at h
    split at h
    · simp only [bind, Except.bind] at h
      split at h
      · cases h
      · split at h
        · cases h
        · cases h
          simp [Array.getElem?_set_ne, Ne.symm hi]
    · cases h
      simp [Array.getElem?_set_ne, Ne.symm hi]
  · cases h

/-- Taking a record back changes no mark. -/
theorem undo_tried {t t' : Trail} {position : Nat} {a a' : Assignment} {b : Bool}
    (h : t.undo position a = .ok (b, t', a')) : t'.tried = t.tried := by
  unfold undo at h
  split at h
  · dsimp only at h
    split at h
    · simp only [bind, Except.bind] at h
      split at h
      · cases h
      · split at h
        · cases h
        · cases h; rfl
    · cases h; rfl
  · cases h

/-- Only a decision is reported as taken back. -/
theorem undo_decision {t t' : Trail} {position : Nat} {a a' : Assignment}
    (h : t.undo position a = .ok (true, t', a')) :
    ∃ l implied, t.steps[position]? = some (some (.decision l implied)) := by
  unfold undo at h
  split at h
  · rename_i hposition
    dsimp only at h
    split at h
    · rename_i l implied hstep
      exact ⟨l, implied, by simp [hposition, hstep]⟩
    · cases h
  · cases h

end Trail

namespace Search

/-- The number with the given digits in base 6, the first digit first. -/
def numeral (digits : Nat → Nat) : Nat → Nat
  | 0 => 0
  | count + 1 => numeral digits count * 6 + digits count

/-- A numeral is given by its digits. -/
theorem numeral_congr {d d' : Nat → Nat} {count : Nat} (h : ∀ i < count, d' i = d i) :
    numeral d' count = numeral d count := by
  induction count with
  | zero => rfl
  | succ count ih =>
    rw [numeral, numeral, ih fun i hi => h i (by omega), h count (by omega)]

/-- A number becomes smaller if its first changed digit does. -/
theorem numeral_lt {d d' : Nat → Nat} {count k : Nat} (hk : k < count)
    (hsame : ∀ i < k, d' i = d i) (hless : d' k < d k) (hdigit : ∀ i, d' i ≤ 5) :
    numeral d' count < numeral d count := by
  induction count with
  | zero => omega
  | succ count ih =>
    rw [numeral, numeral]
    by_cases he : k = count
    · subst he
      rw [numeral_congr hsame]
      omega
    · have hrest := ih (by omega)
      have hlast := hdigit count
      omega

/-- How much is left to do at a position of the order. Behind the current
    position everything is; at it, the literals that are not tried; in front of
    it, those of the decisions, together with the decision itself. -/
def digit (p : Problem) (s : State) (i : Nat) : Nat :=
  match p.order.vars[i]? with
  | none => 0
  | some v =>
    if i < s.position then
      match s.trail.steps[i]? with
      | some (some (.decision _ _)) => 2 * s.trail.untried v + 1
      | _ => 0
    else if i = s.position then 2 * s.trail.untried v
    else 5

/-- What is left of the search. It becomes smaller in every round. -/
def remaining (p : Problem) (s : State) : Nat :=
  numeral (digit p s) p.order.vars.size

/-- Every position has a digit in base six. -/
theorem digit_le (p : Problem) (s : State) (i : Nat) : digit p s i ≤ 5 := by
  unfold digit
  split
  · omega
  · rename_i v _
    have := s.trail.untried_le v
    split
    · split <;> omega
    · split <;> omega

/-- A digit in front of two positions depends on the record there and on the
    marks of its variable only. -/
theorem digit_congr {p : Problem} {s s' : State} {i : Nat} (hs : i < s.position)
    (hs' : i < s'.position) (hstep : s'.trail.steps[i]? = s.trail.steps[i]?)
    (hmarks : ∀ v, p.order.vars[i]? = some v → s'.trail.untried v = s.trail.untried v) :
    digit p s' i = digit p s i := by
  unfold digit
  split
  · rfl
  · rename_i v hv
    rw [if_pos hs, if_pos hs', hstep, hmarks v hv]

/-- The digit of the current position is twice the number of literals left to try. -/
theorem digit_at {p : Problem} {s : State} {i : Nat} {v : Variable}
    (hv : p.order.vars[i]? = some v) (hi : s.position = i) :
    digit p s i = 2 * s.trail.untried v := by
  simp [digit, hv, hi]

/-- A decision adds one to twice the number of literals left to try. -/
theorem digit_decision {p : Problem} {s : State} {i : Nat} {v : Variable} {l : Literal}
    {implied : List Variable} (hv : p.order.vars[i]? = some v) (hi : i < s.position)
    (hstep : s.trail.steps[i]? = some (some (.decision l implied))) :
    digit p s i = 2 * s.trail.untried v + 1 := by
  simp [digit, hv, hi, hstep]

/-- No variable stands at two positions of the order. -/
theorem order_ne {p : Problem} {i j : Nat} {v w : Variable} (hij : i ≠ j)
    (hv : p.order.vars[i]? = some v) (hw : p.order.vars[j]? = some w) : v ≠ w := by
  rintro rfl
  have hi : i < p.order.vars.toList.length := by
    rw [Array.length_toList]
    exact (Array.getElem?_eq_some_iff.mp hv).1
  refine hij ((List.getElem?_inj hi p.order.nodup).mp ?_)
  rw [Array.getElem?_toList, Array.getElem?_toList, hv, hw]

/-- Rewinding keeps the marks and the records in front of the decision it stops
    at. -/
theorem rewind_spec {position stop : Nat} {t t' : Trail} {a a' : Assignment}
    (h : rewind position t a = .ok (some stop, t', a')) :
    stop < position ∧ t'.tried = t.tried ∧ (∀ i < stop, t'.steps[i]? = t.steps[i]?) ∧
      ∃ l implied, t.steps[stop]? = some (some (.decision l implied)) := by
  induction position generalizing t a with
  | zero => cases h
  | succ position ih =>
    unfold rewind at h
    split at h
    · cases h
    · rename_i hundo
      cases h
      exact ⟨by omega, Trail.undo_tried hundo,
        fun i hi => Trail.undo_steps hundo i (by omega), Trail.undo_decision hundo⟩
    · rename_i hundo
      obtain ⟨hlt, htried, hsteps, l, implied, hstep⟩ := ih h
      refine ⟨by omega, htried.trans (Trail.undo_tried hundo), fun i hi => ?_, l, implied, ?_⟩
      · rw [hsteps i hi, Trail.undo_steps hundo i (by omega)]
      · rw [← hstep, Trail.undo_steps hundo stop (by omega)]

/-- Passing over a position leaves less to do. -/
theorem remaining_skip {p : Problem} {s s' : State} {v : Variable} {m : Move}
    (hv : p.order.vars[s.position]? = some v) (hmarks : s.trail.anyTried v = false)
    (h : skip s = .ok (.moved m s')) : remaining p s' < remaining p s := by
  obtain ⟨trail, hrecord, heq⟩ := skip_cases h
  cases heq
  have hk := (Array.getElem?_eq_some_iff.mp hv).1
  refine numeral_lt hk (fun i hi => ?_) ?_ (digit_le p _)
  · refine digit_congr hi (Nat.lt_succ_of_lt hi) ?_ fun w _ => ?_
    · simp only [Trail.steps_record hrecord i, if_neg (Nat.ne_of_lt hi)]
    · exact Trail.untried_congr fun l _ => Trail.isTried_congr (Trail.tried_record hrecord) l
  · rw [digit_at hv rfl, Trail.untried_of_not_anyTried hmarks]
    simp [digit, hv, Trail.steps_record hrecord s.position]

/-- Trying a literal leaves less to do, whether it fails or not. -/
theorem remaining_attempt {p : Problem} {s s' : State} {v : Variable} {l : Literal} {m : Move}
    (hv : p.order.vars[s.position]? = some v) (hl : l.var = v)
    (huntried : s.trail.isTried l = false) (h : attempt p l s = .ok (.moved m s')) :
    remaining p s' < remaining p s := by
  subst hl
  have hk := (Array.getElem?_eq_some_iff.mp hv).1
  obtain ⟨marked, hmark, hresult⟩ := attempt_cases h
  have hcount := Trail.untried_markTried hmark huntried
  have hother (i : Nat) (hi : i < s.position) (w : Variable)
      (hw : p.order.vars[i]? = some w) : marked.untried w = s.trail.untried w := by
    refine Trail.untried_congr fun x hx => ?_
    rw [Trail.isTried_setTried hmark, if_neg]
    rintro rfl
    exact order_ne (Nat.ne_of_lt hi) hw hv hx.symm
  obtain ⟨_, _, _, trail, hrecord, heq⟩ | ⟨_, _, _, _, heq⟩ := hresult
  · cases heq
    have hmarks (w : Variable) : trail.untried w = marked.untried w :=
      Trail.untried_congr fun x _ => Trail.isTried_congr (Trail.tried_record hrecord) x
    refine numeral_lt hk (fun i hi => ?_) ?_ (digit_le p _)
    · refine digit_congr hi (Nat.lt_succ_of_lt hi) ?_ fun w hw => ?_
      · simp only [Trail.steps_record hrecord i, if_neg (Nat.ne_of_lt hi),
          Trail.steps_setTried hmark]
      · exact (hmarks w).trans (hother i hi w hw)
    · rw [digit_at hv rfl, digit_decision hv (Nat.lt_succ_self _)
        (by rw [Trail.steps_record hrecord s.position, if_pos rfl]), hmarks]
      omega
  · cases heq
    refine numeral_lt hk (fun i hi => ?_) ?_ (digit_le p _)
    · refine digit_congr hi hi ?_ fun w hw => hother i hi w hw
      rw [Trail.steps_setTried hmark]
    · rw [digit_at hv rfl, digit_at (s := ⟨s.position, _, _, marked, _⟩) hv rfl]
      dsimp only
      omega

/-- Going back to an earlier decision leaves less to do. -/
theorem remaining_retreat {p : Problem} {s s' : State} {v : Variable} {m : Move}
    (hv : p.order.vars[s.position]? = some v) (h : retreat v s = .ok (.moved m s')) :
    remaining p s' < remaining p s := by
  have hk := (Array.getElem?_eq_some_iff.mp hv).1
  obtain ⟨cleared, hclear, ⟨_, _, _, heq⟩ | ⟨stop, trail, _, hrewind, heq⟩⟩ := retreat_cases h
  · cases heq
  · cases heq
    obtain ⟨hlt, htried, hsteps, l, implied, hstep⟩ := rewind_spec hrewind
    have hmarks (i : Nat) (hi : i < s.position) (w : Variable)
        (hw : p.order.vars[i]? = some w) : trail.untried w = s.trail.untried w := by
      refine Trail.untried_congr fun x hx => ?_
      rw [Trail.isTried_congr htried, Trail.isTried_clearTried hclear]
      rw [hx]
      exact order_ne (Nat.ne_of_lt hi) hw hv
    have hstop : p.order.vars[stop]? = some p.order.vars[stop] :=
      Array.getElem?_eq_getElem (Nat.lt_trans hlt hk)
    refine numeral_lt (Nat.lt_trans hlt hk) (fun i hi => ?_) ?_ (digit_le p _)
    · refine digit_congr (Nat.lt_trans hi hlt) hi ?_
        fun w hw => hmarks i (Nat.lt_trans hi hlt) w hw
      simp only [hsteps i hi, Trail.steps_clearTried hclear]
    · rw [digit_at hstop rfl,
        digit_decision hstop hlt (by rw [← Trail.steps_clearTried hclear]; exact hstep)]
      have hless := hmarks stop hlt _ hstop
      dsimp only
      omega

/-- Every round that does not end the search leaves less to do. -/
theorem remaining_step {p : Problem} {s s' : State} {m : Move}
    (h : step p s = .ok (.moved m s')) : remaining p s' < remaining p s := by
  obtain hend | ⟨v, hv, ⟨hmarks, hskip⟩ | ⟨l, hl, huntried, hattempt⟩ | ⟨_, hretreat⟩⟩ :=
    step_cases h
  · cases hend
  · exact remaining_skip hv hmarks hskip
  · exact remaining_attempt hv hl huntried hattempt
  · exact remaining_retreat hv hretreat

end Search

end Clausal
