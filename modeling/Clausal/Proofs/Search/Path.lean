import Clausal.Proofs.Valuation

namespace Clausal

/-- The variables that a step of the search gives a value. -/
def Step.vars : Step → List Variable
  | .skipped => []
  | .decision l implied => l.var :: implied

namespace Trail

/-- The variables that the steps at the first `count` positions give a value. -/
def chosen (t : Trail) : Nat → List Variable
  | 0 => []
  | count + 1 =>
    t.chosen count ++
      match t.steps[count]? with
      | some (some step) => step.vars
      | _ => []

/-- The record at a position adds its variables to those chosen in front of it. -/
theorem chosen_succ {t : Trail} {position : Nat} {step : Step}
    (h : t.steps[position]? = some (some step)) :
    t.chosen (position + 1) = t.chosen position ++ step.vars := by
  simp only [chosen, h]

end Trail

namespace Search

/-- How the search has come to a position. Each position in front of it was
    passed over, because its variable had a value, or holds a decision, whose
    values follow from the clauses. If the complement of a decision is marked as
    tried, no valuation that agrees with the values in front of the decision
    makes it true. -/
inductive Path (p : Problem) (fixed : Assignment) (t : Trail) : Nat → Assignment → Prop
  | start : Path p fixed t 0 fixed
  | skipped {i : Nat} {a : Assignment} {v : Variable} (hpath : Path p fixed t i a)
      (hv : p.order.vars[i]? = some v) (hstep : t.steps[i]? = some (some .skipped))
      (hvalue : (a.value? v).isSome) (huntried : ∀ l : Literal, l.var = v → t.isTried l = false) :
      Path p fixed t (i + 1) a
  | decision {i : Nat} {a a' : Assignment} {l : Literal} {implied : List Variable}
      (hpath : Path p fixed t i a) (hv : p.order.vars[i]? = some l.var)
      (hstep : t.steps[i]? = some (some (.decision l implied)))
      (hgains : a.Gains (l.var :: implied) a') (hvalue : a'.value? l.var = some l.polarity)
      (hentails : ∀ v : Valuation, v.Extends a → v.Makes l → v.Satisfies p.clauses.toList →
        v.Extends a')
      (hexcludes : t.isTried l.negate = true → a.Excludes p.clauses.toList l.negate) :
      Path p fixed t (i + 1) a'

variable {p : Problem} {fixed a : Assignment} {t t' : Trail} {position : Nat}

/-- A path depends on the records at its positions and on the marks of their
    variables only. -/
theorem Path.congr (h : Path p fixed t position a)
    (hsteps : ∀ i < position, t'.steps[i]? = t.steps[i]?)
    (htried : ∀ i < position, ∀ l : Literal, p.order.vars[i]? = some l.var →
      t'.isTried l = t.isTried l) : Path p fixed t' position a := by
  induction h with
  | start => exact .start
  | @skipped i a v hpath hv hstep hvalue huntried ih =>
    have hbefore := ih (fun j hj => hsteps j (by omega)) fun j hj => htried j (by omega)
    refine .skipped hbefore hv (by rw [hsteps i (by omega), hstep]) hvalue fun l hl => ?_
    rw [htried i (by omega) l (by rw [hl]; exact hv), huntried l hl]
  | @decision i a a' l implied hpath hv hstep hgains hvalue hentails hexcludes ih =>
    have hbefore := ih (fun j hj => hsteps j (by omega)) fun j hj => htried j (by omega)
    refine .decision hbefore hv (by rw [hsteps i (by omega), hstep]) hgains hvalue hentails ?_
    rw [htried i (by omega) l.negate (by simpa using hv)]
    exact hexcludes

/-- The values at a position are those fixed before the search and those the
    steps in front of the position have given. -/
theorem Path.gains (h : Path p fixed t position a) :
    fixed.Gains (t.chosen position) a := by
  induction h with
  | start => exact Assignment.Gains.refl fixed
  | skipped _ _ hstep _ _ ih =>
    rw [Trail.chosen_succ hstep, Step.vars, List.append_nil]
    exact ih
  | decision _ _ hstep hgains _ _ _ ih =>
    rw [Trail.chosen_succ hstep]
    exact ih.trans hgains

/-- A path does not lead beyond the order. -/
theorem Path.position_le (h : Path p fixed t position a) : position ≤ p.order.vars.size := by
  cases h with
  | start => exact Nat.zero_le _
  | skipped _ hv => exact (Array.getElem?_eq_some_iff.mp hv).1
  | decision _ hv => exact (Array.getElem?_eq_some_iff.mp hv).1

/-- A path goes through every position in front of its own, with fewer values. -/
theorem Path.upTo (h : Path p fixed t position a) {i : Nat} (hi : i ≤ position) :
    ∃ earlier, Path p fixed t i earlier ∧ a.Extends earlier := by
  induction h with
  | start =>
    obtain rfl : i = 0 := by omega
    exact ⟨fixed, .start, Assignment.Extends.refl fixed⟩
  | @skipped j a v hpath hv hstep hvalue huntried ih =>
    rcases Nat.le_succ_iff.mp hi with hle | rfl
    · exact ih hle
    · exact ⟨a, .skipped hpath hv hstep hvalue huntried, Assignment.Extends.refl a⟩
  | @decision j a a' l implied hpath hv hstep hgains hvalue hentails hexcludes ih =>
    rcases Nat.le_succ_iff.mp hi with hle | rfl
    · obtain ⟨earlier, hearlier, hextends⟩ := ih hle
      exact ⟨earlier, hearlier, hgains.extends.trans hextends⟩
    · exact ⟨a', .decision hpath hv hstep hgains hvalue hentails hexcludes,
        Assignment.Extends.refl a'⟩

/-- Every position in front of the current one has a record. -/
theorem Path.recorded (h : Path p fixed t position a) {i : Nat} (hi : i < position) :
    ∃ step, t.steps[i]? = some (some step) := by
  obtain ⟨_, hearlier, _⟩ := h.upTo (Nat.succ_le_of_lt hi)
  cases hearlier with
  | skipped _ _ hstep => exact ⟨_, hstep⟩
  | decision _ _ hstep => exact ⟨_, hstep⟩

/-- The literal of every decision is true. -/
theorem Path.decision_true (h : Path p fixed t position a) {i : Nat} (hi : i < position)
    {l : Literal} {implied : List Variable}
    (hdecision : t.steps[i]? = some (some (.decision l implied))) :
    a.value? l.var = some l.polarity := by
  obtain ⟨_, hearlier, hextends⟩ := h.upTo (Nat.succ_le_of_lt hi)
  cases hearlier with
  | skipped _ _ hstep =>
    rw [hdecision] at hstep
    cases hstep
  | decision _ _ hstep _ hvalue =>
    rw [hdecision] at hstep
    cases hstep
    exact hextends _ _ hvalue

/-- Every variable in front of the position has a value. -/
theorem Path.isSome_value? (h : Path p fixed t position a) {i : Nat} (hi : i < position)
    {v : Variable} (hv : p.order.vars[i]? = some v) : (a.value? v).isSome := by
  obtain ⟨_, hearlier, hextends⟩ := h.upTo (Nat.succ_le_of_lt hi)
  cases hearlier with
  | skipped _ hw _ hvalue =>
    rw [hv] at hw
    cases hw
    obtain ⟨b, hb⟩ := Option.isSome_iff_exists.mp hvalue
    simp [hextends _ _ hb]
  | decision _ hw _ _ hvalue =>
    rw [hv] at hw
    cases hw
    simp [hextends _ _ hvalue]

/-- No literal of a variable that was passed over is marked as tried. -/
theorem Path.untried_of_skipped (h : Path p fixed t position a) {i : Nat} (hi : i < position)
    (hskipped : t.steps[i]? = some (some .skipped)) {l : Literal}
    (hv : p.order.vars[i]? = some l.var) : t.isTried l = false := by
  obtain ⟨_, hearlier, _⟩ := h.upTo (Nat.succ_le_of_lt hi)
  cases hearlier with
  | skipped _ hw _ _ huntried =>
    rw [hv] at hw
    cases hw
    exact huntried l rfl
  | decision _ _ hstep =>
    rw [hskipped] at hstep
    cases hstep

end Search

end Clausal
