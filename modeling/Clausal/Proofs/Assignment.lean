import Clausal.Preprocess.Fixpoint
import Clausal.Proofs.Fault
import Clausal.Search.Measure

namespace Clausal

namespace Literal

/-- An integer stands for the literal with that value. -/
theorem ofInt_eq_ok_iff {value : Int} {l : Literal} : ofInt value = .ok l ↔ l.value = value := by
  have hne := l.ne_zero
  have hle := l.natAbs_le
  simp only [ofInt]
  split
  · simp only [reduceCtorEq, false_iff]
    omega
  · split
    · simp [Literal.ext_iff, eq_comm]
    · simp only [reduceCtorEq, false_iff]
      omega

@[simp] theorem ofInt_value (l : Literal) : ofInt l.value = .ok l := ofInt_eq_ok_iff.mpr rfl

/-- The complement of a literal has the same variable. -/
@[simp] theorem var_negate (l : Literal) : l.negate.var = l.var := by
  apply Variable.ext
  simp [negate, var]

/-- The complement of a literal has the other polarity. -/
@[simp] theorem polarity_negate (l : Literal) : l.negate.polarity = !l.polarity := by
  have hne := l.ne_zero
  by_cases hpos : 0 < l.value
  · simp [negate, polarity, hpos]
    omega
  · simp [negate, polarity, hpos]
    omega

@[simp] theorem negate_negate (l : Literal) : l.negate.negate = l := by
  apply Literal.ext
  simp [negate]

/-- No literal is its own complement. -/
theorem negate_ne (l : Literal) : l.negate ≠ l := by
  intro heq
  have hpolarity := congrArg polarity heq
  cases hl : l.polarity <;> simp [hl] at hpolarity

/-- Over one variable there are only a literal and its complement. -/
theorem eq_or_eq_negate {l m : Literal} (hvar : m.var = l.var) : m = l ∨ m = l.negate := by
  by_cases hpolarity : m.polarity = l.polarity
  · exact Or.inl (ext_var hvar hpolarity)
  · refine Or.inr (ext_var (by simpa using hvar) ?_)
    rw [polarity_negate]
    cases hm : m.polarity <;> cases hl : l.polarity <;> simp_all

end Literal

namespace Assignment

/-- The table has an entry for exactly the variables the assignment covers. -/
theorem slot_lt_iff (a : Assignment) (v : Variable) :
    v.slot < a.values.size ↔ v.id ≤ a.numVars := by
  have hone := v.one_le
  simp only [Variable.slot, numVars]
  omega

/-- Overwriting the entry of a covered variable changes that entry and no other. -/
theorem update_spec {a : Assignment} {v : Variable} (h : v.id ≤ a.numVars)
    (entry : Option Bool) :
    ∃ a', a.update v entry = .ok a' ∧ a'.numVars = a.numVars ∧
      ∀ w, a'.value? w = if w = v then entry else a.value? w := by
  have hslot := (a.slot_lt_iff v).mpr h
  refine ⟨⟨a.values.set v.slot entry hslot⟩, by simp [update, hslot], by simp [numVars], ?_⟩
  intro w
  by_cases hw : w = v
  · subst hw
    simp [value?, hslot]
  · have hne : v.slot ≠ w.slot := by
      intro heq
      have hv := v.one_le
      have hw' := w.one_le
      simp only [Variable.slot] at heq
      exact hw (Variable.ext (by omega))
    simp only [value?, Array.size_set, if_neg hw]
    split
    · rw [Array.getElem_set_ne _ _ hne]
    · rfl

/-- Only the entries of variables that an assignment covers can be overwritten. -/
theorem id_le_of_update {a a' : Assignment} {v : Variable} {entry : Option Bool}
    (h : a.update v entry = .ok a') : v.id ≤ a.numVars := by
  rw [← slot_lt_iff]
  unfold update at h
  split at h
  · assumption
  · cases h

/-- Only the variables an assignment covers have values. -/
theorem id_le_of_value? {a : Assignment} {v : Variable} {b : Bool} (h : a.value? v = some b) :
    v.id ≤ a.numVars := by
  rw [← slot_lt_iff]
  unfold value? at h
  split at h
  · assumption
  · cases h

/-- Two assignments of the same variables are equal if they give every variable
    the same value. -/
theorem ext_value? {a a' : Assignment} (hnum : a'.numVars = a.numVars)
    (hmax : a.numVars ≤ Variable.maxId) (h : ∀ v, a'.value? v = a.value? v) : a' = a := by
  obtain ⟨values⟩ := a
  obtain ⟨values'⟩ := a'
  simp only [numVars] at hnum hmax
  congr 1
  apply Array.ext hnum
  intro i hi' hi
  have hvalue := h ⟨i + 1, by omega, by simp only [Variable.maxId] at hmax; omega⟩
  simpa [value?, Variable.slot, hi, hi'] using hvalue

/-- The blank assignment has no values. -/
@[simp] theorem value?_blank (numVars : Nat) (v : Variable) : (blank numVars).value? v = none := by
  unfold value? blank
  split
  · simp
  · rfl

@[simp] theorem numVars_blank (numVars : Nat) : (blank numVars).numVars = numVars := by
  simp [blank, Assignment.numVars]

/-- A table for admissible variables can always be laid out. -/
theorem create_eq_ok {numVars : Nat} (h : numVars ≤ Variable.maxId) :
    create numVars = .ok (blank numVars) := by
  obtain ⟨hadd, htable⟩ := Word.table_of_le h
  simp only [create, hadd, htable, bind, Except.bind]
  rfl

/-- A literal has no value exactly where its variable has none. -/
theorem literalValue?_eq_none {a : Assignment} {l : Literal} :
    a.literalValue? l = none ↔ a.value? l.var = none := by
  simp [literalValue?]

/-- The value of a literal is that of its variable, turned around for a negative one. -/
theorem literalValue?_eq_some {a : Assignment} {l : Literal} {b : Bool} :
    a.literalValue? l = some b ↔ a.value? l.var = some (b == l.polarity) := by
  cases b <;> cases hl : l.polarity <;> simp [literalValue?, hl]

/-- A literal is false if its variable has the value opposite to its polarity. -/
theorem falsifies_iff {a : Assignment} {l : Literal} :
    a.falsifies l = true ↔ a.value? l.var = some !l.polarity := by
  simp only [falsifies, beq_iff_eq, literalValue?_eq_some]
  cases l.polarity <;> simp

/-- Making a literal true gives its variable that value and no other variable another
    one. -/
theorem assign_spec {a : Assignment} {l : Literal} (h : l.var.id ≤ a.numVars) :
    ∃ a', a.assign l = .ok a' ∧ a'.numVars = a.numVars ∧
      ∀ w, a'.value? w = if w = l.var then some l.polarity else a.value? w :=
  update_spec h (some l.polarity)

/-- Taking a value away changes no other variable. -/
theorem unassign_spec {a : Assignment} {v : Variable} (h : v.id ≤ a.numVars) :
    ∃ a', a.unassign v = .ok a' ∧ a'.numVars = a.numVars ∧
      ∀ w, a'.value? w = if w = v then none else a.value? w :=
  update_spec h none

/-- Taking several values away leaves all others. -/
theorem unassignAll_spec {a : Assignment} {vs : List Variable}
    (h : ∀ v ∈ vs, v.id ≤ a.numVars) :
    ∃ a', a.unassignAll vs = .ok a' ∧ a'.numVars = a.numVars ∧
      ∀ w, a'.value? w = if w ∈ vs then none else a.value? w := by
  induction vs generalizing a with
  | nil => exact ⟨a, rfl, rfl, fun w => by simp⟩
  | cons v rest ih =>
    obtain ⟨first, hfirst, hnum, hvalue⟩ := unassign_spec (h v List.mem_cons_self)
    obtain ⟨last, hlast, hnum', hvalue'⟩ :=
      ih (a := first) fun w hw => hnum ▸ h w (List.mem_cons_of_mem v hw)
    refine ⟨last, ?_, hnum'.trans hnum, ?_⟩
    · rw [← hlast]
      simp [unassignAll, hfirst, bind, Except.bind]
    · intro w
      rw [hvalue', hvalue]
      by_cases hw : w ∈ rest <;> by_cases hv : w = v <;> simp [hw, hv]

end Assignment

end Clausal
