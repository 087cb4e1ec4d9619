import Clausal.Proofs.Formula
import Clausal.Proofs.Sudoku.Grid
import Clausal.Proofs.Sudoku.Numbering
import Mathlib.Data.List.ProdSigma

namespace Clausal.Sudoku

section Pairs

variable {α : Type} {xs : List α} {a b : α}

/-- What holds of every element and each behind it holds of the pairs. -/
theorem rel_of_mem_pairs {r : α → α → Prop} (hpairwise : xs.Pairwise r)
    (h : (a, b) ∈ pairs xs) : r a b := by
  induction xs with
  | nil => cases h
  | cons x xs ih =>
    obtain ⟨hx, hxs⟩ := List.pairwise_cons.mp hpairwise
    rw [pairs, List.mem_append, List.mem_map] at h
    rcases h with ⟨y, hy, heq⟩ | h
    · cases heq
      exact hx b hy
    · exact ih hxs h

/-- Without repetitions the elements of a pair differ. -/
theorem ne_of_mem_pairs (hnodup : xs.Nodup) (h : (a, b) ∈ pairs xs) : a ≠ b :=
  rel_of_mem_pairs hnodup h

/-- Two different elements are a pair in one order or the other. -/
theorem mem_pairs_of_ne (ha : a ∈ xs) (hb : b ∈ xs) (hne : a ≠ b) :
    (a, b) ∈ pairs xs ∨ (b, a) ∈ pairs xs := by
  induction xs with
  | nil => cases ha
  | cons x xs ih =>
    simp only [pairs, List.mem_append, List.mem_map, Prod.mk.injEq]
    rcases List.mem_cons.mp ha with rfl | ha'
    · rcases List.mem_cons.mp hb with rfl | hb'
      · exact absurd rfl hne
      · exact .inl (.inl ⟨b, hb', rfl, rfl⟩)
    · rcases List.mem_cons.mp hb with rfl | hb'
      · exact .inr (.inl ⟨a, ha', rfl, rfl⟩)
      · exact (ih ha' hb').imp .inr .inr

/-- A symmetric property of every two distinct elements is one of the pairs of a
    list in which everything occurs once. -/
theorem forall_mem_pairs {P : α → α → Prop} (hnodup : xs.Nodup) (hall : ∀ a, a ∈ xs)
    (hsymm : ∀ a b, P a b → P b a) :
    (∀ a b, (a, b) ∈ pairs xs → P a b) ↔ ∀ a b, a ≠ b → P a b := by
  constructor
  · intro h a b hne
    rcases mem_pairs_of_ne (hall a) (hall b) hne with hmem | hmem
    · exact h a b hmem
    · exact hsymm b a (h b a hmem)
  · intro h a b hmem
    exact h a b (ne_of_mem_pairs hnodup hmem)

end Pairs

namespace Order

variable {o : Order}

/-- Every place is listed. -/
theorem mem_places (place : o.Place) : place ∈ o.places := by
  simp [places]

/-- No place is listed twice. -/
theorem nodup_places (o : Order) : o.places.Nodup :=
  (List.nodup_finRange o.side).product (List.nodup_finRange o.side)

/-- Peers are pairs of places that share a unit. -/
theorem mem_peers {a b : o.Place} :
    (a, b) ∈ o.peers ↔ (a, b) ∈ pairs o.places ∧ o.sharesUnit a b = true := by
  simp [peers]

/-- A clause about the places and digits of a board. -/
structure Admits (o : Order) (c : Clause) : Prop where
  nonempty : c ≠ []
  mentions : ∀ l ∈ c, ∃ place d, l.var = o.variableAt place d

/-- The literals of an admitted clause are over the variables of the puzzle. -/
theorem Admits.id_le {c : Clause} (h : o.Admits c) : ∀ l ∈ c, l.var.id ≤ o.numVars := by
  intro l hl
  obtain ⟨place, d, hvar⟩ := h.mentions l hl
  rw [hvar]
  exact o.variable_le place d

section EitherOf

/-- The clause that one of two literals is true, without a literal that is known
    to be false. -/
private def eitherOf (falseL falseM : Bool) (l m : Literal) : Clause :=
  if falseL then [m] else if falseM then [l] else [l, m]

variable {falseL falseM : Bool} {l m : Literal}

private theorem makes_eitherOf {v : Valuation} (hl : falseL = true → ¬ v.Makes l)
    (hm : falseM = true → ¬ v.Makes m) :
    (∃ k ∈ eitherOf falseL falseM l m, v.Makes k) ↔ v.Makes l ∨ v.Makes m := by
  cases falseL <;> cases falseM <;> simp_all [eitherOf]

private theorem admits_eitherOf (hl : ∃ place d, l.var = o.variableAt place d)
    (hm : ∃ place d, m.var = o.variableAt place d) : o.Admits (eitherOf falseL falseM l m) := by
  constructor
  · cases falseL <;> cases falseM <;> simp [eitherOf]
  · intro k hk
    have hcases : k = l ∨ k = m := by
      cases falseL <;> cases falseM <;> simp_all [eitherOf]
    rcases hcases with rfl | rfl
    · exact hl
    · exact hm

private theorem nodup_eitherOf (h : l ≠ m) : (eitherOf falseL falseM l m).Nodup := by
  cases falseL <;> cases falseM <;> simp [eitherOf, h]

end EitherOf

/-- That a place does not hold two digits is an admitted clause. -/
theorem admits_notBothDigits (given : Nat) (place : o.Place) (digits : Fin o.side × Fin o.side) :
    o.Admits (o.notBothDigits given place digits) :=
  admits_eitherOf ⟨place, digits.1, Variable.var_literal _ _⟩
    ⟨place, digits.2, Variable.var_literal _ _⟩

/-- That two places do not hold the same digit is an admitted clause. -/
theorem admits_notBothPlaces (a b : o.Place) (givenA givenB : Nat) (d : Fin o.side) :
    o.Admits (o.notBothPlaces a b givenA givenB d) :=
  admits_eitherOf ⟨a, d, Variable.var_literal _ _⟩ ⟨b, d, Variable.var_literal _ _⟩

/-- The clause about two digits repeats no literal. -/
theorem nodup_notBothDigits (given : Nat) {place : o.Place} {digits : Fin o.side × Fin o.side}
    (h : o.lacks place digits.1 ≠ o.lacks place digits.2) :
    (o.notBothDigits given place digits).Nodup :=
  nodup_eitherOf h

/-- The clause about two places repeats no literal. -/
theorem nodup_notBothPlaces {a b : o.Place} (givenA givenB : Nat) {d : Fin o.side}
    (h : o.lacks a d ≠ o.lacks b d) : (o.notBothPlaces a b givenA givenB d).Nodup :=
  nodup_eitherOf h

/-- A valuation puts a digit into a place by its variable. -/
theorem makes_holds {v : Valuation} {place : o.Place} {d : Fin o.side} :
    v.Makes (o.holds place d) ↔ v (o.variableAt place d) = true := by
  simp [Valuation.Makes, holds]

/-- A valuation keeps a digit out of a place by its variable. -/
theorem makes_lacks {v : Valuation} {place : o.Place} {d : Fin o.side} :
    v.Makes (o.lacks place d) ↔ ¬ v (o.variableAt place d) = true := by
  simp [Valuation.Makes, lacks]

/-- A valuation that makes the given digit true makes the clause true unless it
    gives the place both digits. -/
theorem makes_notBothDigits {v : Valuation} {given : Nat} {place : o.Place}
    (hgiven : ∀ d, o.shows given d = true → v (o.variableAt place d) = true)
    (d e : Fin o.side) : (∃ l ∈ o.notBothDigits given place (d, e), v.Makes l) ↔
      ¬ (v (o.variableAt place d) = true ∧ v (o.variableAt place e) = true) := by
  rw [not_and_or, ← makes_lacks, ← makes_lacks]
  apply makes_eitherOf
  · exact fun hd hlacks => makes_lacks.mp hlacks (hgiven d hd)
  · exact fun he hlacks => makes_lacks.mp hlacks (hgiven e he)

/-- The clause about two places holds if they do not both have the digit, and given
    digits need not be said again. -/
theorem makes_notBothPlaces {v : Valuation} {givenA givenB : Nat} {a b : o.Place}
    (ha : ∀ d, o.shows givenA d = true → v (o.variableAt a d) = true)
    (hb : ∀ d, o.shows givenB d = true → v (o.variableAt b d) = true) (d : Fin o.side) :
    (∃ l ∈ o.notBothPlaces a b givenA givenB d, v.Makes l) ↔
      ¬ (v (o.variableAt a d) = true ∧ v (o.variableAt b d) = true) := by
  rw [not_and_or, ← makes_lacks, ← makes_lacks]
  apply makes_eitherOf
  · exact fun hd hlacks => makes_lacks.mp hlacks (ha d hd)
  · exact fun hd hlacks => makes_lacks.mp hlacks (hb d hd)

end Order

namespace Puzzle

variable {p : Puzzle}

/-- A place may hold a digit if none is given there, or this one. -/
def Allows (p : Puzzle) (place : p.order.Place) (d : Fin p.order.side) : Prop :=
  p.givenAt place = 0 ∨ p.givenAt place = d.val + 1

instance (p : Puzzle) (place : p.order.Place) (d : Fin p.order.side) :
    Decidable (p.Allows place d) :=
  inferInstanceAs (Decidable (_ ∨ _))

/-- Every place of a well-formed puzzle allows some digit. -/
theorem WellFormed.exists_allows (hp : p.WellFormed) (place : p.order.Place) :
    ∃ d, p.Allows place d := by
  by_cases hzero : p.givenAt place = 0
  · exact ⟨⟨0, p.order.side_pos⟩, .inl hzero⟩
  · have hle : p.givenAt place ≤ p.order.side := hp.digits place.1 place.2
    exact ⟨⟨p.givenAt place - 1, by omega⟩, .inr (by simp only; omega)⟩

/-- The clause that a place holds one of the digits it may hold. -/
def someAllowed (p : Puzzle) (place : p.order.Place) : Clause :=
  ((List.finRange p.order.side).filter fun d => p.Allows place d).map (p.order.holds place)

/-- The clause about a place has a literal for every digit that is allowed there. -/
theorem mem_someAllowed {place : p.order.Place} {l : Literal} :
    l ∈ p.someAllowed place ↔ ∃ d, p.Allows place d ∧ p.order.holds place d = l := by
  simp [someAllowed]

/-- The clause about a place holds if it has a digit that is allowed there. -/
theorem makes_someAllowed {v : Valuation} {place : p.order.Place} :
    (∃ l ∈ p.someAllowed place, v.Makes l) ↔
      ∃ d, p.Allows place d ∧ v (p.order.variableAt place d) = true := by
  constructor
  · rintro ⟨l, hl, hmakes⟩
    obtain ⟨d, hd, rfl⟩ := mem_someAllowed.mp hl
    exact ⟨d, hd, Order.makes_holds.mp hmakes⟩
  · rintro ⟨d, hd, htrue⟩
    exact ⟨_, mem_someAllowed.mpr ⟨d, hd, rfl⟩, Order.makes_holds.mpr htrue⟩

/-- The literal of a given digit can be computed. -/
theorem givenLiteral_eq (place : p.order.Place) (d : Fin p.order.side) :
    p.givenLiteral place (d.val + 1) = .ok (p.order.holds place d) := by
  have hvariable : Variable.ofNat? (p.order.variableAt place d).id =
      some (p.order.variableAt place d) := by
    rw [Variable.ofNat?, dif_pos ⟨Variable.one_le _, Variable.le_max _⟩]
  simp only [givenLiteral, Order.variableId_eq, hvariable, bind, Except.bind, liftM, monadLift,
    MonadLift.monadLift]
  rfl

/-- The clause about a place can be computed. -/
theorem occupied_eq (hp : p.WellFormed) (place : p.order.Place) :
    p.occupied place (p.givenAt place) = .ok (p.someAllowed place) := by
  unfold occupied
  by_cases hzero : p.givenAt place = 0
  · have hall : (List.finRange p.order.side).filter (fun d => p.Allows place d) =
        List.finRange p.order.side :=
      List.filter_eq_self.mpr fun d _ => decide_eq_true (.inl hzero)
    rw [if_pos hzero, someAllowed, hall]
    rfl
  · obtain ⟨d, hd | hd⟩ := hp.exists_allows place
    · exact absurd hd hzero
    · have hallows (e : Fin p.order.side) : decide (p.Allows place e) = (e == d) := by
        rw [Bool.eq_iff_iff, decide_eq_true_iff, beq_iff_eq, Allows, hd, Fin.ext_iff]
        omega
      have hone : (List.finRange p.order.side).filter (fun e => p.Allows place e) = [d] := by
        simp only [hallows, List.filter_beq,
          List.count_eq_one_of_mem (List.nodup_finRange _) (List.mem_finRange d)]
        rfl
      rw [if_neg hzero, someAllowed, hone, hd, givenLiteral_eq]
      rfl

/-- The clauses of a puzzle in which no two givens clash. -/
def rules (p : Puzzle) : List Clause :=
  (p.order.places.flatMap fun place => p.someAllowed place ::
      (pairs (List.finRange p.order.side)).map (p.order.notBothDigits (p.givenAt place) place)) ++
    p.order.peers.flatMap fun (a, b) =>
      (List.finRange p.order.side).map (p.order.notBothPlaces a b (p.givenAt a) (p.givenAt b))

/-- The clauses of a well-formed puzzle are its rules, unless two places clash. -/
theorem clauses_eq (hp : p.WellFormed) :
    p.clauses = match p.order.peers.findSome? fun (a, b) => p.clash? a b with
      | some cause => .error (.error cause)
      | none => .ok p.rules := by
  have hplace (place : p.order.Place) : p.placeClauses place = .ok (p.someAllowed place ::
      (pairs (List.finRange p.order.side)).map
        (p.order.notBothDigits (p.givenAt place) place)) := by
    simp only [placeClauses, get_place hp.square, occupied_eq hp, bind, Except.bind, liftM,
      monadLift, MonadLift.monadLift]
    rfl
  rw [clauses, mapM_eq_ok fun place _ => hplace place]
  rfl

/-- All rules are admitted clauses. -/
theorem admits_of_mem_rules (hp : p.WellFormed) {c : Clause} (hc : c ∈ p.rules) :
    p.order.Admits c := by
  simp only [rules, List.mem_append, List.mem_flatMap, List.mem_cons, List.mem_map] at hc
  rcases hc with ⟨place, _, rfl | ⟨digits, _, rfl⟩⟩ | ⟨⟨a, b⟩, _, d, _, rfl⟩
  · constructor
    · obtain ⟨d, hd⟩ := hp.exists_allows place
      exact List.ne_nil_of_mem (mem_someAllowed.mpr ⟨d, hd, rfl⟩)
    · intro l hl
      obtain ⟨d, _, rfl⟩ := mem_someAllowed.mp hl
      exact ⟨place, d, Variable.var_literal _ _⟩
  · exact Order.admits_notBothDigits _ _ _
  · exact Order.admits_notBothPlaces _ _ _ _ _

/-- The rules of a well-formed puzzle make a well-formed formula. -/
theorem wellFormed_rules (hp : p.WellFormed) :
    (Formula.ofParts p.numVars p.rules).WellFormed :=
  ⟨p.order.numVars_le, fun _ hc => (admits_of_mem_rules hp hc).nonempty,
    fun _ hc => (admits_of_mem_rules hp hc).id_le⟩

/-- Two equal digits are given in one row, column or box. -/
def Clashes (p : Puzzle) : Prop :=
  ∃ a b : p.order.Place, a ≠ b ∧
    (a.1.val = b.1.val ∨ a.2.val = b.2.val ∨
      a.1.val / p.order.n = b.1.val / p.order.n ∧ a.2.val / p.order.n = b.2.val / p.order.n) ∧
    p.givenAt a ≠ 0 ∧ p.givenAt a = p.givenAt b

instance (p : Puzzle) : Decidable p.Clashes :=
  inferInstanceAs (Decidable (∃ _ _, _))

/-- Without a clash, places that share a unit are blank or differ. -/
theorem not_clashes_iff : ¬ p.Clashes ↔ ∀ a b : p.order.Place, a ≠ b →
    p.order.sharesUnit a b = true → p.givenAt a = p.givenAt b → p.givenAt a = 0 := by
  constructor
  · intro h a b hne hshares heq
    by_contra hzero
    exact h ⟨a, b, hne, Order.sharesUnit_iff.mp hshares, hzero, heq⟩
  · rintro h ⟨a, b, hne, hshares, hzero, heq⟩
    exact hzero (h a b hne (Order.sharesUnit_iff.mpr hshares) heq)

private theorem clash?_eq_none (hp : p.WellFormed) {a b : p.order.Place} :
    p.clash? a b = none ↔ (p.givenAt a = p.givenAt b → p.givenAt a = 0) := by
  have hle : p.givenAt a ≤ p.side := hp.digits a.1 a.2
  simp only [clash?, ite_eq_right_iff, reduceCtorEq, imp_false]
  omega

/-- No clash is found if there is none. -/
theorem findSome?_clash?_eq_none (hp : p.WellFormed) :
    (p.order.peers.findSome? fun (a, b) => p.clash? a b) = none ↔ ¬ p.Clashes := by
  rw [not_clashes_iff, ← forall_mem_pairs p.order.nodup_places Order.mem_places,
    List.findSome?_eq_none_iff]
  · constructor
    · intro h a b hmem hshares
      exact (clash?_eq_none hp).mp (h (a, b) (Order.mem_peers.mpr ⟨hmem, hshares⟩))
    · rintro h ⟨a, b⟩ hmem
      obtain ⟨hmem, hshares⟩ := Order.mem_peers.mp hmem
      exact (clash?_eq_none hp).mpr (h a b hmem hshares)
  · intro a b h hshares heq
    rw [heq]
    exact h (Order.sharesUnit_comm.trans hshares) heq.symm

/-- The rules pass the validation of formulas. -/
theorem formulaOf_rules (hp : p.WellFormed) :
    p.formulaOf p.rules = .ok (Formula.ofParts p.numVars p.rules) := by
  simp only [formulaOf, Formula.ofClauses, Formula.validate_eq_ok_iff.mpr (wellFormed_rules hp)]
  rfl

/-- A well-formed puzzle is encoded by its rules, unless two places clash. -/
theorem toFormula_eq (hp : p.WellFormed) :
    p.toFormula = match p.order.peers.findSome? fun (a, b) => p.clash? a b with
      | some cause => .error (.error cause)
      | none => .ok (Formula.ofParts p.numVars p.rules) := by
  rw [toFormula, clauses_eq hp]
  cases p.order.peers.findSome? fun (a, b) => p.clash? a b with
  | some cause => rfl
  | none => exact formulaOf_rules hp

/-- A puzzle is encoded unless two of its givens clash. -/
theorem toFormula_spec (hp : p.WellFormed) :
    (p.Clashes ∧ ∃ row col otherRow otherCol digit, p.toFormula =
        .error (.error (.inconsistentPuzzle row col otherRow otherCol digit))) ∨
      (¬ p.Clashes ∧ p.toFormula = .ok (Formula.ofParts p.numVars p.rules)) := by
  have hclashes := findSome?_clash?_eq_none hp
  rw [toFormula_eq hp]
  cases hfind : p.order.peers.findSome? fun (a, b) => p.clash? a b with
  | some cause =>
    obtain ⟨⟨a, b⟩, _, hcause⟩ := List.exists_of_findSome?_eq_some hfind
    simp only [clash?] at hcause
    split at hcause
    · cases hcause
      refine .inl ⟨?_, _, _, _, _, _, rfl⟩
      simpa [hfind] using hclashes
    · cases hcause
  | none => exact .inr ⟨hclashes.mp hfind, rfl⟩

end Puzzle

end Clausal.Sudoku
