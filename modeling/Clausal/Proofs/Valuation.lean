import Clausal.Proofs.Assignment

namespace Clausal

namespace Assignment

/-- Every value of the second assignment is also one of the first. -/
def Extends (a' a : Assignment) : Prop :=
  ∀ v b, a.value? v = some b → a'.value? v = some b

theorem Extends.refl (a : Assignment) : a.Extends a := fun _ _ h => h

theorem Extends.trans {a a' a'' : Assignment} (h' : a''.Extends a') (h : a'.Extends a) :
    a''.Extends a := fun v b hv => h' v b (h v b hv)

/-- The second assignment is the first together with values for the listed
    variables, which are distinct and have no value before. -/
structure Gains (a : Assignment) (vs : List Variable) (a' : Assignment) : Prop where
  numVars : a'.numVars = a.numVars
  nodup : vs.Nodup
  fresh : ∀ v ∈ vs, a.value? v = none
  given : ∀ v ∈ vs, (a'.value? v).isSome
  kept : ∀ v ∉ vs, a'.value? v = a.value? v

theorem Gains.refl (a : Assignment) : a.Gains [] a :=
  ⟨rfl, List.nodup_nil, by simp, by simp, fun _ _ => rfl⟩

/-- What is gained is added to what was there. -/
theorem Gains.extends {a a' : Assignment} {vs : List Variable} (h : a.Gains vs a') :
    a'.Extends a := by
  intro v b hv
  rw [h.kept v, hv]
  intro hmem
  rw [h.fresh v hmem] at hv
  cases hv

/-- The variables with a value are those from before and those gained. -/
theorem Gains.isSome_iff {a a' : Assignment} {vs : List Variable} (h : a.Gains vs a')
    (v : Variable) : (a'.value? v).isSome ↔ (a.value? v).isSome ∨ v ∈ vs := by
  by_cases hmem : v ∈ vs
  · simp [hmem, h.given v hmem]
  · simp [hmem, h.kept v hmem]

/-- What is gained in two steps is gained. -/
theorem Gains.trans {a a' a'' : Assignment} {vs ws : List Variable} (h : a.Gains vs a')
    (h' : a'.Gains ws a'') : a.Gains (vs ++ ws) a'' := by
  have hfresh (w : Variable) (hw : w ∈ ws) : w ∉ vs ∧ a.value? w = none := by
    have hnone := h'.fresh w hw
    have hiff := h.isSome_iff w
    simp only [hnone, Option.isSome_none, Bool.false_eq_true, false_iff, not_or] at hiff
    exact ⟨hiff.2, by simpa using hiff.1⟩
  refine ⟨h'.numVars.trans h.numVars, ?_, ?_, ?_, ?_⟩
  · refine List.nodup_append.mpr ⟨h.nodup, h'.nodup, ?_⟩
    rintro v hv w hw rfl
    exact (hfresh v hw).1 hv
  · intro v hv
    rcases List.mem_append.mp hv with hv | hv
    · exact h.fresh v hv
    · exact (hfresh v hv).2
  · intro v hv
    rw [h'.isSome_iff]
    rcases List.mem_append.mp hv with hv | hv
    · exact Or.inl (h.given v hv)
    · exact Or.inr hv
  · intro v hv
    rw [List.mem_append, not_or] at hv
    rw [h'.kept v hv.2, h.kept v hv.1]

/-- Making a literal without a value true gains its variable. -/
theorem gains_assign {a : Assignment} {l : Literal} (hrange : l.var.id ≤ a.numVars)
    (hnone : a.value? l.var = none) :
    ∃ a', a.assign l = .ok a' ∧ a.Gains [l.var] a' ∧ a'.value? l.var = some l.polarity := by
  obtain ⟨a', hassign, hnum, hvalue⟩ := assign_spec hrange
  refine ⟨a', hassign, ⟨hnum, by simp, ?_, ?_, ?_⟩, by simp [hvalue]⟩
  · simpa using hnone
  · simp [hvalue]
  · intro v hv
    rw [hvalue, if_neg (by simpa using hv)]

/-- A literal that has been made true without a value gains its variable. -/
theorem gains_of_assign {a a' : Assignment} {l : Literal} (hassign : a.assign l = .ok a')
    (hnone : a.value? l.var = none) :
    a.Gains [l.var] a' ∧ a'.value? l.var = some l.polarity := by
  obtain ⟨assigned, hassigned, hgains, hvalue⟩ := gains_assign (id_le_of_update hassign) hnone
  rw [hassign] at hassigned
  cases hassigned
  exact ⟨hgains, hvalue⟩

/-- Only covered variables are gained. -/
theorem Gains.id_le {a a' : Assignment} {vs : List Variable} (h : a.Gains vs a') {v : Variable}
    (hv : v ∈ vs) : v.id ≤ a'.numVars := by
  obtain ⟨b, hb⟩ := Option.isSome_iff_exists.mp (h.given v hv)
  exact id_le_of_value? hb

/-- Taking the values away again, in any order, leaves every variable as it was. -/
theorem Gains.unassignAll_spec {a a' : Assignment} {vs ws : List Variable} (h : a.Gains vs a')
    (hmem : ∀ v, v ∈ ws ↔ v ∈ vs) :
    ∃ back, a'.unassignAll ws = .ok back ∧ back.numVars = a.numVars ∧
      ∀ v, back.value? v = a.value? v := by
  obtain ⟨back, hback, hnum, hvalue⟩ :=
    Assignment.unassignAll_spec fun v hv => h.id_le ((hmem v).mp hv)
  refine ⟨back, hback, hnum.trans h.numVars, fun v => ?_⟩
  rw [hvalue]
  by_cases hv : v ∈ vs
  · rw [if_pos ((hmem v).mpr hv), h.fresh v hv]
  · rw [if_neg (fun hw => hv ((hmem v).mp hw)), h.kept v hv]

/-- Taking the values away again, in any order, gives the first assignment back. -/
theorem Gains.unassignAll {a a' : Assignment} {vs ws : List Variable} (h : a.Gains vs a')
    (hmem : ∀ v, v ∈ ws ↔ v ∈ vs) (hmax : a.numVars ≤ Variable.maxId) :
    a'.unassignAll ws = .ok a := by
  obtain ⟨back, hback, hnum, hvalue⟩ := h.unassignAll_spec hmem
  rw [hback, ext_value? hnum hmax hvalue]

private theorem countP_isSome_mono {entries entries' : List (Option Bool)}
    (hlength : entries'.length = entries.length)
    (h : ∀ (i : Nat) (b : Bool), entries[i]? = some (some b) → entries'[i]? = some (some b)) :
    entries.countP Option.isSome ≤ entries'.countP Option.isSome ∧
      (entries'.countP Option.isSome = entries.countP Option.isSome → entries' = entries) := by
  induction entries generalizing entries' with
  | nil => simp_all
  | cons entry rest ih =>
    match entries', hlength with
    | entry' :: rest', hlength =>
      have hrest : rest'.length = rest.length := by simpa using hlength
      obtain ⟨hle, heq⟩ := ih hrest fun i b hi => h (i + 1) b hi
      have hfirst (b : Bool) (hb : entry = some b) : entry' = some b := by
        simpa using h 0 b (by simp [hb])
      simp only [List.countP_cons]
      cases entry with
      | some b =>
        simp only [hfirst b rfl, Option.isSome_some, if_true, List.cons.injEq, true_and]
        exact ⟨by omega, fun hcount => heq (by omega)⟩
      | none =>
        cases entry' with
        | none => simpa using ⟨hle, heq⟩
        | some b =>
          simp only [Option.isSome_some, Option.isSome_none, if_true]
          exact ⟨by simp; omega, fun hcount => by simp at hcount; omega⟩

/-- An assignment that only gains values and gains none stays as it is. -/
theorem Extends.eq_of_fixedCount {a a' : Assignment} (h : a'.Extends a)
    (hnum : a'.numVars = a.numVars) (hmax : a.numVars ≤ Variable.maxId)
    (hcount : a'.fixedCount = a.fixedCount) : a' = a := by
  obtain ⟨values⟩ := a
  obtain ⟨values'⟩ := a'
  simp only [numVars, Variable.maxId] at hnum hmax
  have hkept (i : Nat) (b : Bool) (hi : values.toList[i]? = some (some b)) :
      values'.toList[i]? = some (some b) := by
    rw [Array.getElem?_toList] at hi ⊢
    obtain ⟨hlt, hget⟩ := Array.getElem?_eq_some_iff.mp hi
    have hvalue := h ⟨i + 1, by omega, by omega⟩ b (by simp [value?, Variable.slot, hlt, hget])
    have hlt' : i < values'.size := by omega
    rw [Array.getElem?_eq_getElem hlt']
    simpa [value?, Variable.slot, hlt'] using hvalue
  have hlists := (countP_isSome_mono (by simpa using hnum) hkept).2
    (by simpa [fixedCount] using hcount)
  rw [Array.toList_inj.mp hlists]

end Assignment

/-- A truth value for every variable. -/
abbrev Valuation := Variable → Bool

namespace Valuation

/-- The valuation makes the literal true. -/
def Makes (v : Valuation) (l : Literal) : Prop := v l.var = l.polarity

/-- The valuation makes some literal of every clause true. -/
def Satisfies (v : Valuation) (clauses : List Clause) : Prop :=
  ∀ c ∈ clauses, ∃ l ∈ c, v.Makes l

instance (v : Valuation) (l : Literal) : Decidable (v.Makes l) :=
  inferInstanceAs (Decidable (v l.var = l.polarity))

instance (v : Valuation) (clauses : List Clause) : Decidable (v.Satisfies clauses) :=
  inferInstanceAs (Decidable (∀ c ∈ clauses, ∃ l ∈ c, v.Makes l))

/-- The valuation agrees with every value of the assignment. -/
def Extends (v : Valuation) (a : Assignment) : Prop :=
  ∀ x b, a.value? x = some b → v x = b

/-- A valuation makes a literal true or its complement. -/
theorem makes_negate {v : Valuation} {l : Literal} : v.Makes l.negate ↔ ¬ v.Makes l := by
  simp only [Makes, Literal.var_negate, Literal.polarity_negate]
  cases v l.var <;> cases l.polarity <;> simp

/-- What extends more values extends fewer. -/
theorem Extends.mono {v : Valuation} {a a' : Assignment} (hv : v.Extends a')
    (h : a'.Extends a) : v.Extends a := fun x b hx => hv x b (h x b hx)

/-- A literal that is true stays true. -/
theorem Extends.makes {v : Valuation} {a : Assignment} {l : Literal} (hv : v.Extends a)
    (h : a.literalValue? l = some true) : v.Makes l := by
  rw [Assignment.literalValue?_eq_some] at h
  simpa [Makes] using hv _ _ h

/-- A literal that is false stays false. -/
theorem Extends.not_makes {v : Valuation} {a : Assignment} {l : Literal} (hv : v.Extends a)
    (h : a.falsifies l = true) : ¬ v.Makes l := by
  have hvalue := hv _ _ (Assignment.falsifies_iff.mp h)
  unfold Makes
  rw [hvalue]
  cases l.polarity <;> simp

/-- Every valuation extends the blank assignment. -/
theorem extends_blank (v : Valuation) (numVars : Nat) : v.Extends (.blank numVars) := by
  intro x b hx
  simp at hx

/-- Making a literal true narrows the valuations to those that do so as well. -/
theorem extends_assign {v : Valuation} {a a' : Assignment} {l : Literal}
    (hgains : a.Gains [l.var] a') (hvalue : a'.value? l.var = some l.polarity) :
    v.Extends a' ↔ v.Extends a ∧ v.Makes l := by
  constructor
  · intro hv
    exact ⟨hv.mono hgains.extends, hv _ _ hvalue⟩
  · rintro ⟨hv, hl⟩ x b hx
    by_cases hvar : x = l.var
    · subst hvar
      rw [hvalue] at hx
      cases hx
      exact hl
    · rw [hgains.kept x (by simpa using hvar)] at hx
      exact hv x b hx

end Valuation

namespace Assignment

/-- The values of the assignment, and false elsewhere. -/
def valuation (a : Assignment) : Valuation := fun v => (a.value? v).getD false

/-- An assignment is extended by its own completion. -/
theorem extends_valuation (a : Assignment) : a.valuation.Extends a := by
  intro v b hv
  simp [valuation, hv]

/-- An assignment is determined by the valuations that extend it. -/
theorem eq_of_extends_iff {a a' : Assignment} (hnum : a'.numVars = a.numVars)
    (hmax : a.numVars ≤ Variable.maxId)
    (h : ∀ v : Valuation, v.Extends a' ↔ v.Extends a) : a' = a := by
  have hhalf {a a' : Assignment} (h : ∀ v : Valuation, v.Extends a' → v.Extends a)
      {x : Variable} {b : Bool} (hx : a.value? x = some b) : a'.value? x = some b := by
    -- The valuation gives `x` the other value if `a'` leaves that open.
    have hopen : Valuation.Extends
        (fun y => if y = x then (a'.value? x).getD !b else a'.valuation y) a' := by
      intro y c hy
      by_cases heq : y = x
      · subst heq
        simp [hy]
      · simpa [heq] using a'.extends_valuation y c hy
    have hvalue := h _ hopen x b hx
    cases hx' : a'.value? x with
    | none => simp [hx'] at hvalue
    | some c => simpa [hx'] using hvalue
  apply ext_value? hnum hmax
  intro x
  cases hx : a.value? x with
  | some b => exact hhalf (fun v hv => (h v).mp hv) hx
  | none =>
    cases hx' : a'.value? x with
    | none => rfl
    | some b =>
      have hback := hhalf (fun v hv => (h v).mpr hv) hx'
      rw [hx] at hback
      cases hback

/-- Every valuation that extends the first assignment and satisfies the clauses
    extends the second one too. -/
def Entails (a : Assignment) (clauses : List Clause) (a' : Assignment) : Prop :=
  ∀ v : Valuation, v.Extends a → v.Satisfies clauses → v.Extends a'

/-- No valuation that extends the assignment and satisfies the clauses makes the
    literal true. -/
def Excludes (a : Assignment) (clauses : List Clause) (l : Literal) : Prop :=
  ∀ v : Valuation, v.Extends a → v.Satisfies clauses → ¬ v.Makes l

/-- No valuation that extends the assignment satisfies the clauses. -/
def Refutes (a : Assignment) (clauses : List Clause) : Prop :=
  ∀ v : Valuation, v.Extends a → ¬ v.Satisfies clauses

theorem Entails.refl (a : Assignment) (clauses : List Clause) : a.Entails clauses a :=
  fun _ hv _ => hv

/-- If values that are entailed lead to a contradiction, then there was one before. -/
theorem Entails.refutes {a a' : Assignment} {clauses : List Clause}
    (h : a.Entails clauses a') (h' : a'.Refutes clauses) : a.Refutes clauses :=
  fun v hv hsat => h' v (h v hv hsat) hsat

/-- One of the two literals of a variable is true, so excluding both leaves
    nothing. -/
theorem refutes_of_excludes {a : Assignment} {clauses : List Clause} {l : Literal}
    (h : a.Excludes clauses l) (h' : a.Excludes clauses l.negate) : a.Refutes clauses := by
  intro v hv hsat
  exact h' v hv hsat (Valuation.makes_negate.mpr (h v hv hsat))

/-- An assignment that makes a clause false refutes the clauses. -/
theorem refutes_of_falsified {a : Assignment} {clauses : List Clause} {c : Clause}
    (hc : c ∈ clauses) (h : ∀ l ∈ c, a.falsifies l = true) : a.Refutes clauses := by
  intro v hv hsat
  obtain ⟨l, hl, hmakes⟩ := hsat c hc
  exact hv.not_makes (h l hl) hmakes

end Assignment

end Clausal
