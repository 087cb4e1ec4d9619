import Clausal.Proofs.Valuation

namespace Clausal

namespace Valuation

/-- The valuation that a list of literals describes. A variable has the polarity
    of its last occurrence in the list and is false if it does not occur. -/
def ofModel (model : List Literal) : Valuation := fun v =>
  ((model.reverse.find? fun l => l.var = v).map Literal.polarity).getD false

/-- A literal of the list is true unless the list mentions its variable
    otherwise. -/
theorem ofModel_makes {model : List Literal} {l : Literal} (hl : l ∈ model)
    (honly : ∀ m ∈ model, m.var = l.var → m = l) : (ofModel model).Makes l := by
  unfold Makes ofModel
  cases hfind : model.reverse.find? fun m => m.var = l.var with
  | none =>
    have hnone := List.find?_eq_none.mp hfind l (List.mem_reverse.mpr hl)
    simp at hnone
  | some m =>
    have hm : m ∈ model := List.mem_reverse.mp (List.mem_of_find?_eq_some hfind)
    have hvar : m.var = l.var := by simpa using List.find?_some hfind
    rw [honly m hm hvar]
    rfl

end Valuation

namespace Variable

/-- The listed variables are those up to the given number. -/
theorem mem_upTo {count : Nat} {v : Variable} : v ∈ upTo count ↔ v.id ≤ count := by
  have hone := v.one_le
  have hmax := v.le_max
  simp only [upTo, List.mem_filterMap, List.mem_range'_1]
  constructor
  · rintro ⟨id, hid, hv⟩
    rw [ofNat?_eq_some hv]
    omega
  · intro h
    exact ⟨v.id, by omega, by simp [ofNat?, hone, hmax]⟩

/-- The variables are listed by their numbers, from 1 on. -/
theorem map_id_upTo {count : Nat} (h : count ≤ maxId) :
    (upTo count).map Variable.id = List.range' 1 count := by
  induction count with
  | zero => rfl
  | succ count ih =>
    have hlast : (ofNat? (1 + count)).map Variable.id = some (1 + count) := by
      simp only [maxId] at h
      rw [ofNat?, dif_pos (by omega)]
      rfl
    have hfront := ih (Nat.le_of_succ_le h)
    simp only [upTo, List.map_filterMap] at hfront ⊢
    rw [List.range'_1_concat, List.filterMap_append, hfront, List.filterMap_cons, hlast]
    rfl

end Variable

namespace Assignment

variable {a : Assignment}

/-- The model lists one literal per variable, in the order of the variables. -/
theorem map_model (h : a.numVars ≤ Variable.maxId) :
    a.model.map (fun l => l.var.id) = List.range' 1 a.numVars := by
  rw [model, declared, List.map_map, ← Variable.map_id_upTo h]
  simp [Function.comp_def]

/-- A model has one literal per variable. -/
theorem length_model (h : a.numVars ≤ Variable.maxId) : a.model.length = a.numVars := by
  simpa using congrArg List.length (map_model h)

/-- The literals of a model are in the order of their variables. -/
theorem id_of_getElem?_model (h : a.numVars ≤ Variable.maxId) {i : Nat} {l : Literal}
    (hl : a.model[i]? = some l) : l.var.id = i + 1 := by
  have hi : i < a.numVars := by
    rw [← length_model h]
    exact (List.getElem?_eq_some_iff.mp hl).1
  have hid : (a.model.map fun l => l.var.id)[i]? = some l.var.id := by
    rw [List.getElem?_map, hl]
    rfl
  rw [map_model h, List.getElem?_range' hi] at hid
  have heq := Option.some.inj hid
  omega

/-- A model holds the literals over covered variables that the completed assignment
    makes true. -/
theorem mem_model {l : Literal} :
    l ∈ a.model ↔ l.var.id ≤ a.numVars ∧ a.valuation.Makes l := by
  simp only [model, declared, List.mem_map, Variable.mem_upTo, Valuation.Makes, valuation]
  constructor
  · rintro ⟨v, hv, rfl⟩
    simpa using hv
  · rintro ⟨hrange, hvalue⟩
    exact ⟨l.var, hrange, by rw [hvalue, Literal.literal_var]⟩

/-- A valuation that makes the model true agrees with the assignment on all of
    its variables. -/
theorem satisfies_of_model {clauses : List Clause} {v : Valuation}
    (hrange : ∀ c ∈ clauses, ∀ l ∈ c, l.var.id ≤ a.numVars)
    (hsat : a.valuation.Satisfies clauses) (hmodel : ∀ l ∈ a.model, v.Makes l) :
    v.Satisfies clauses := by
  intro c hc
  obtain ⟨l, hl, hmakes⟩ := hsat c hc
  exact ⟨l, hl, hmodel l (mem_model.mpr ⟨hrange c hc l hl, hmakes⟩)⟩

/-- The model describes a valuation that makes all of its literals true. -/
theorem ofModel_makes_model {l : Literal} (hl : l ∈ a.model) :
    (Valuation.ofModel a.model).Makes l := by
  apply Valuation.ofModel_makes hl
  intro m hm hvar
  have hlvalue := (mem_model.mp hl).2
  have hmvalue := (mem_model.mp hm).2
  apply Literal.ext_var hvar
  rw [← hlvalue, ← hmvalue, hvar]

end Assignment

end Clausal
