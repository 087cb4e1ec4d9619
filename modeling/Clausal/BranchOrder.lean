import Clausal.Assignment

namespace Clausal

/-- How often each variable occurs positively and negatively. -/
structure Occurrences where
  positive : Array Nat
  negative : Array Nat
deriving DecidableEq, Repr

namespace Occurrences

/-- No occurrences of the variables 1 to `numVars`. -/
def blank (numVars : Nat) : Occurrences :=
  ⟨Array.replicate numVars 0, Array.replicate numVars 0⟩

/-- No occurrences, unless the tables would be too large. -/
def create (numVars : Nat) : Except Fault Occurrences := do
  Word.checkTable (← Word.add numVars 1) 8
  return blank numVars

/-- Counts one occurrence of a literal. -/
def bump (o : Occurrences) (l : Literal) : Except Fault Occurrences :=
  let ⟨positive, negative⟩ := o
  if l.polarity then
    if l.var.slot < positive.size then .ok ⟨positive.modify l.var.slot (· + 1), negative⟩
    else .error .outOfRange
  else
    if l.var.slot < negative.size then .ok ⟨positive, negative.modify l.var.slot (· + 1)⟩
    else .error .outOfRange

/-- Counts the occurrences of several literals. -/
def bumpAll (o : Occurrences) (literals : List Literal) : Except Fault Occurrences :=
  literals.foldlM bump o

/-- The number of positive occurrences of a variable. -/
def positiveOf (o : Occurrences) (v : Variable) : Nat := o.positive.getD v.slot 0

/-- The number of negative occurrences of a variable. -/
def negativeOf (o : Occurrences) (v : Variable) : Nat := o.negative.getD v.slot 0

/-- The number of occurrences of a variable. -/
def total (o : Occurrences) (v : Variable) : Nat := o.positiveOf v + o.negativeOf v

/-- The polarity that occurs less often, false if both occur equally often. -/
def rarerPolarity (o : Occurrences) (v : Variable) : Bool :=
  decide (o.positiveOf v < o.negativeOf v)

/-- The total and the rarer polarity of a variable, which must be counted by the
    tables. -/
def query (o : Occurrences) (v : Variable) : Except Fault (Nat × Bool) :=
  if v.slot < o.positive.size ∧ v.slot < o.negative.size then
    .ok (o.total v, o.rarerPolarity v)
  else .error .outOfRange

end Occurrences

/-- The variables to branch on, in the order in which the search visits them,
    and the occurrence counts they were ordered by. -/
structure BranchOrder where
  vars : Array Variable
  nodup : vars.toList.Nodup
  occurrences : Occurrences

namespace BranchOrder

/-- Whether a variable is visited before another, or is the same: it occurs more
    often, or equally often and has the smaller number. -/
def precedes (o : Occurrences) (v w : Variable) : Bool :=
  decide (o.total w < o.total v) || (o.total v == o.total w && decide (v.id ≤ w.id))

/-- The candidates with an occurrence, most frequent first. -/
def arrange (o : Occurrences) (candidates : List Variable) : List Variable :=
  (candidates.filter fun v => decide (0 < o.total v)).mergeSort (precedes o)

end BranchOrder

namespace Variable

/-- The number of a listed variable is its position in the list of numbers. -/
theorem ofNat?_eq_some {id : Nat} {v : Variable} (h : ofNat? id = some v) : v.id = id := by
  unfold ofNat? at h
  split at h
  · cases h; rfl
  · cases h

/-- No variable is listed twice. -/
theorem nodup_upTo (count : Nat) : (upTo count).Nodup := by
  unfold upTo List.Nodup
  rw [List.pairwise_filterMap]
  refine List.Pairwise.imp ?_ (List.nodup_range' (s := 1) (n := count))
  intro i j hij v hv w hw heq
  exact hij (by rw [← ofNat?_eq_some hv, ← ofNat?_eq_some hw, heq])

end Variable

namespace BranchOrder

/-- Arranging candidates repeats none of them. -/
theorem nodup_arrange (o : Occurrences) {candidates : List Variable} (h : candidates.Nodup) :
    (arrange o candidates).Nodup :=
  (List.mergeSort_perm _ _).nodup_iff.mpr (h.filter _)

/-- Counts the occurrences of unassigned variables in the clauses and orders
    the variables that occur. -/
def ofClauses (clauses : List Clause) (a : Assignment) : Except Fault BranchOrder := do
  let unassigned := clauses.flatten.filter fun l => (a.literalValue? l).isNone
  let o ← (Occurrences.blank a.numVars).bumpAll unassigned
  return ⟨(arrange o a.declared).toArray, nodup_arrange o (Variable.nodup_upTo a.numVars), o⟩

/-- The number of variables to branch on. -/
def size (order : BranchOrder) : Nat := order.vars.size

/-- The literals of a variable in the order in which they are tried: the rarer
    one first. -/
def phases (order : BranchOrder) (v : Variable) : List Literal :=
  let first := order.occurrences.rarerPolarity v
  [v.literal first, v.literal !first]

/-- Both literals of a variable are tried, and no others. -/
theorem mem_phases {order : BranchOrder} {v : Variable} {l : Literal} :
    l ∈ order.phases v ↔ l.var = v := by
  simp only [phases, List.mem_cons, List.not_mem_nil, or_false]
  constructor
  · rintro (rfl | rfl) <;> exact Variable.var_literal _ _
  · rintro rfl
    cases hfirst : order.occurrences.rarerPolarity l.var <;> cases hl : l.polarity <;>
      simp [← hl]

end BranchOrder

end Clausal
