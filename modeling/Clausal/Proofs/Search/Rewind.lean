import Clausal.Proofs.Search.Path
import Clausal.Proofs.Watches.Entries

namespace Clausal

namespace Trail

/-- Writing a record changes that record and no mark. -/
theorem record_spec {t : Trail} {position : Nat} (h : position < t.steps.size) (step : Step) :
    ∃ t', t.record position step = .ok t' ∧ t'.tried = t.tried ∧
      t'.steps.size = t.steps.size ∧
      ∀ i, t'.steps[i]? = if i = position then some (some step) else t.steps[i]? := by
  have hrecord : t.record position step =
      .ok { t with steps := t.steps.set position (some step) h } := by
    rw [record, dif_pos h]
  exact ⟨_, hrecord, rfl, by simp, steps_record hrecord⟩

private theorem setTried_spec {t : Trail} {l : Literal} (h : l.code.index < t.tried.size)
    (mark : Bool) :
    ∃ t', t.setTried l mark = .ok t' ∧ t'.steps = t.steps ∧ t'.tried.size = t.tried.size ∧
      ∀ m, t'.isTried m = if m = l then mark else t.isTried m := by
  have hset : t.setTried l mark = .ok { t with tried := t.tried.set l.code.index mark h } := by
    rw [setTried, dif_pos h]
  exact ⟨_, hset, rfl, by simp, isTried_setTried hset⟩

/-- Marking a literal as tried changes that mark and no record. -/
theorem markTried_spec {t : Trail} {l : Literal} (h : l.code.index < t.tried.size) :
    ∃ t', t.markTried l = .ok t' ∧ t'.steps = t.steps ∧ t'.tried.size = t.tried.size ∧
      ∀ m, t'.isTried m = if m = l then true else t.isTried m :=
  setTried_spec h true

/-- Clearing the marks of a variable changes no record and no other mark. -/
theorem clearTried_spec {t : Trail} {v : Variable} {numVars : Nat}
    (hsize : t.tried.size = LiteralCode.tableLength numVars) (hv : v.id ≤ numVars) :
    ∃ t', t.clearTried v = .ok t' ∧ t'.steps = t.steps ∧ t'.tried.size = t.tried.size ∧
      ∀ m, t'.isTried m = if m.var = v then false else t.isTried m := by
  have hindex (b : Bool) : (v.literal b).code.index < t.tried.size := by
    rw [hsize]
    exact Literal.code_index_lt (by rwa [Variable.var_literal])
  obtain ⟨first, hfirst, hsteps, hfirstSize, hmarks⟩ := setTried_spec (hindex true) false
  obtain ⟨last, hlast, hsteps', hlastSize, hmarks'⟩ :=
    setTried_spec (t := first) (by rw [hfirstSize]; exact hindex false) false
  refine ⟨last, by simp only [clearTried, hfirst, hlast], hsteps'.trans hsteps,
    hlastSize.trans hfirstSize, fun m => ?_⟩
  by_cases hm : m.var = v
  · have hown : m = v.literal m.polarity := by rw [← hm, Literal.literal_var]
    rw [if_pos hm, hmarks', hmarks]
    cases hpolarity : m.polarity <;> rw [hpolarity] at hown <;> simp [← hown]
  · rw [if_neg hm]
    exact isTried_clearTried (by simp only [clearTried, hfirst, hlast]) m hm

private theorem getElem?_cleared {steps : Array (Option Step)} {position : Nat}
    (h : position < steps.size) (i : Nat) :
    (steps.set position none h)[i]? = if i = position then some none else steps[i]? := by
  rw [Array.getElem?_set]
  by_cases hi : i = position
  · simp [hi]
  · simp [hi, Ne.symm hi]

/-- Undoing a position that was passed over removes its record only. -/
theorem undo_skipped {t : Trail} {position : Nat} (a : Assignment)
    (h : t.steps[position]? = some (some .skipped)) :
    ∃ t', t.undo position a = .ok (false, t', a) ∧ t'.tried = t.tried ∧
      t'.steps.size = t.steps.size ∧
      ∀ i, t'.steps[i]? = if i = position then some none else t.steps[i]? := by
  obtain ⟨hsize, hstep⟩ := Array.getElem?_eq_some_iff.mp h
  refine ⟨{ t with steps := t.steps.set position none hsize }, ?_, rfl, by simp, fun i => ?_⟩
  · simp only [undo, dif_pos hsize, hstep]
  · exact getElem?_cleared hsize i

/-- Undoing a decision removes its record and gives back the values in front of
    it. -/
theorem undo_decided {t : Trail} {position : Nat} {a a' : Assignment} {l : Literal}
    {implied : List Variable} (h : t.steps[position]? = some (some (.decision l implied)))
    (hgains : a.Gains (l.var :: implied) a') (hmax : a.numVars ≤ Variable.maxId) :
    ∃ t', t.undo position a' = .ok (true, t', a) ∧ t'.tried = t.tried ∧
      t'.steps.size = t.steps.size ∧
      ∀ i, t'.steps[i]? = if i = position then some none else t.steps[i]? := by
  obtain ⟨hsize, hstep⟩ := Array.getElem?_eq_some_iff.mp h
  have hback : (do let middle ← a'.unassignAll implied; middle.unassign l.var) = .ok a := by
    have hmem : ∀ v, v ∈ implied ++ [l.var] ↔ v ∈ l.var :: implied := by simp [or_comm]
    have hall := hgains.unassignAll hmem hmax
    simpa [Assignment.unassignAll, List.foldlM_append] using hall
  refine ⟨{ t with steps := t.steps.set position none hsize }, ?_, rfl, by simp, fun i => ?_⟩
  · simp only [undo, dif_pos hsize, hstep]
    rw [← bind_assoc, hback]
    rfl
  · exact getElem?_cleared hsize i

end Trail

namespace Search

variable {p : Problem} {fixed : Assignment}

/-- What rewinding leaves when it stops at a decision: the path to the decision,
    no record at or behind it, and the literal of the decision excluded. -/
structure StopsAt (p : Problem) (fixed : Assignment) (position : Nat) (t : Trail)
    (a : Assignment) (stop : Nat) (t' : Trail) (a' : Assignment) : Prop where
  lt : stop < position
  path : Path p fixed t' stop a'
  fewer : a.Extends a'
  tried : t'.tried = t.tried
  size : t'.steps.size = t.steps.size
  cleared : ∀ i, stop ≤ i → i < position → t'.steps[i]? = some none
  kept : ∀ i, position ≤ i → t'.steps[i]? = t.steps[i]?
  marks : ∀ l, t.isTried l = true → ∃ i ≤ stop, p.order.vars[i]? = some l.var
  excluded : ∀ l : Literal, p.order.vars[stop]? = some l.var → t.isTried l = true →
    a'.value? l.var = none ∧ a'.Excludes p.clauses.toList l

/-- Where rewinding from a position may end if no valuation satisfies the clauses
    under the values there: at a decision, or with all values taken back that the
    search has given. -/
def RewindsTo (p : Problem) (fixed : Assignment) (position : Nat) (t : Trail) (a : Assignment) :
    Option Nat × Trail × Assignment → Prop
  | (none, _, a') => a' = fixed ∧ fixed.Refutes p.clauses.toList
  | (some stop, t', a') => StopsAt p fixed position t a stop t' a'

private theorem RewindsTo.extend {position : Nat} {t t' : Trail} {a : Assignment}
    {result : Option Nat × Trail × Assignment} (h : RewindsTo p fixed position t' a result)
    (htried : t'.tried = t.tried) (hsize : t'.steps.size = t.steps.size)
    (hsteps : ∀ i, t'.steps[i]? = if i = position then some none else t.steps[i]?) :
    RewindsTo p fixed (position + 1) t a result := by
  obtain ⟨stop, t'', a''⟩ := result
  cases stop with
  | none => exact h
  | some stop =>
    obtain ⟨hlt, hpath, hfewer, htried', hsize', hcleared, hkept, hmarks, hexcluded⟩ := h
    have hsame (l : Literal) : t'.isTried l = t.isTried l := Trail.isTried_congr htried l
    refine ⟨by omega, hpath, hfewer, htried'.trans htried, hsize'.trans hsize, ?_, ?_, ?_, ?_⟩
    · intro i hle hi
      by_cases heq : i = position
      · rw [hkept i (by omega), hsteps, if_pos heq]
      · exact hcleared i hle (by omega)
    · intro i hi
      rw [hkept i (by omega), hsteps, if_neg (by omega)]
    · intro l hl
      exact hmarks l (by rw [hsame]; exact hl)
    · intro l hv hl
      exact hexcluded l hv (by rw [hsame]; exact hl)

/-- Rewinding takes back the steps of a path, the latest first. -/
theorem rewind_path (hmax : fixed.numVars ≤ Variable.maxId) {position : Nat} {t : Trail}
    {a : Assignment} (hpath : Path p fixed t position a) (hrefutes : a.Refutes p.clauses.toList)
    (hmarks : ∀ l, t.isTried l = true → ∃ i < position, p.order.vars[i]? = some l.var) :
    ∃ result, rewind position t a = .ok result ∧ RewindsTo p fixed position t a result := by
  induction position generalizing t a with
  | zero =>
    cases hpath
    exact ⟨(none, t, fixed), rfl, rfl, hrefutes⟩
  | succ position ih =>
    cases hpath with
    | skipped hbefore hv hstep _ huntried =>
      obtain ⟨t', hundo, htried, hsize, hsteps⟩ := Trail.undo_skipped a hstep
      have hsame (l : Literal) : t'.isTried l = t.isTried l := Trail.isTried_congr htried l
      have hbefore' : Path p fixed t' position a := hbefore.congr
        (fun i hi => by rw [hsteps, if_neg (by omega)]) fun _ _ l _ => hsame l
      obtain ⟨result, hrewind, hspec⟩ := ih hbefore' hrefutes (by
        intro l hl
        rw [hsame] at hl
        obtain ⟨i, hi, hil⟩ := hmarks l hl
        refine ⟨i, Nat.lt_of_le_of_ne (Nat.le_of_lt_succ hi) ?_, hil⟩
        rintro rfl
        rw [hv] at hil
        cases hil
        rw [huntried l rfl] at hl
        cases hl)
      refine ⟨result, ?_, hspec.extend htried hsize hsteps⟩
      simp only [rewind, hundo, hrewind]
    | @decision _ before _ l implied hbefore hv hstep hgains hvalue hentails hexcludes =>
      obtain ⟨t', hundo, htried, hsize, hsteps⟩ := Trail.undo_decided hstep hgains
        (by rw [hbefore.gains.numVars]; exact hmax)
      have hsame (l : Literal) : t'.isTried l = t.isTried l := Trail.isTried_congr htried l
      have hbefore' : Path p fixed t' position before := hbefore.congr
        (fun i hi => by rw [hsteps, if_neg (by omega)]) fun _ _ l _ => hsame l
      refine ⟨(some position, t', before), by simp only [rewind, hundo],
        ⟨by omega, hbefore', hgains.extends, htried, hsize, ?_, ?_, ?_, ?_⟩⟩
      · intro i hle hi
        rw [hsteps, if_pos (by omega)]
      · intro i hi
        rw [hsteps, if_neg (by omega)]
      · intro m hm
        obtain ⟨i, hi, him⟩ := hmarks m hm
        exact ⟨i, by omega, him⟩
      · intro m hvm hm
        rw [hv] at hvm
        have hvar : m.var = l.var := (Option.some.inj hvm).symm
        refine ⟨by rw [hvar]; exact hgains.fresh _ List.mem_cons_self, ?_⟩
        -- The decision itself has just failed; its complement failed earlier.
        rcases Literal.eq_or_eq_negate hvar with rfl | rfl
        · intro v hv hsat hmakes
          exact hrefutes v (hentails v hv hmakes hsat) hsat
        · exact hexcludes hm

end Search

end Clausal
