import Clausal.Error

namespace Clausal

/-- A propositional variable, numbered from 1. The bound makes both of its
    literals signed 32-bit numbers. -/
structure Variable where
  id : Nat
  one_le : 1 ≤ id
  le_max : id ≤ 2147483647
deriving DecidableEq, Repr

namespace Variable

/-- The largest number a variable can have. -/
def maxId : Nat := 2147483647

/-- The variable with a given number, if it is in range. -/
def ofNat? (id : Nat) : Option Variable :=
  if h : 1 ≤ id ∧ id ≤ 2147483647 then some ⟨id, h.1, h.2⟩ else none

/-- The variable with a given number, or the reason why there is none. -/
def ofNat (id : Nat) : Except StructuralError Variable :=
  if h : id = 0 then .error .zeroLiteral
  else if h' : id ≤ 2147483647 then .ok ⟨id, Nat.one_le_iff_ne_zero.mpr h, h'⟩
  else .error (.variableOutOfRange id maxId)

/-- The position of this variable in tables that start with variable 1. -/
@[inline] def slot (v : Variable) : Nat := v.id - 1

/-- The variables numbered 1 to `count`, ascending. -/
def upTo (count : Nat) : List Variable :=
  (List.range' 1 count).filterMap ofNat?

/-- Variables with the same number are the same. -/
@[ext] theorem ext {v w : Variable} (h : v.id = w.id) : v = w := by
  cases v; cases w; simp_all

end Variable

/-- A signed occurrence of a variable. Its value is the variable's number,
    negated for a negative occurrence. -/
structure Literal where
  value : Int
  ne_zero : value ≠ 0
  natAbs_le : value.natAbs ≤ 2147483647
deriving DecidableEq, Repr

namespace Literal

/-- Literals with the same value are the same. -/
@[ext] theorem ext {l m : Literal} (h : l.value = m.value) : l = m := by
  cases l; cases m; simp_all

/-- The literal with a given value, or the reason why there is none. -/
def ofInt (value : Int) : Except StructuralError Literal :=
  if h : value = 0 then .error .zeroLiteral
  else if h' : value.natAbs ≤ 2147483647 then .ok ⟨value, h, h'⟩
  else .error .literalOverflow

/-- The variable of a literal. -/
@[inline] def var (l : Literal) : Variable :=
  ⟨l.value.natAbs, Int.natAbs_pos.mpr l.ne_zero, l.natAbs_le⟩

/-- Whether the literal is a positive occurrence. -/
@[inline] def polarity (l : Literal) : Bool := decide (0 < l.value)

/-- The complementary literal. -/
@[inline] def negate (l : Literal) : Literal :=
  ⟨-l.value, Int.neg_ne_zero.mpr l.ne_zero, by simpa using l.natAbs_le⟩

/-- Literals are ordered by their signed value. -/
instance : Ord Literal := ⟨compareOn Literal.value⟩

instance : Std.TransOrd Literal := inferInstanceAs (Std.TransCmp (compareOn Literal.value))

instance : Std.LawfulEqOrd Literal where
  eq_of_compare h := Literal.ext (Std.LawfulEqOrd.eq_of_compare h)

instance : Hashable Literal := ⟨fun l => hash l.value⟩

/-- The literal in decimal. -/
def render (l : Literal) : String := toString l.value

end Literal

namespace Variable

/-- The literal of a variable with a given polarity. -/
@[inline] def literal (v : Variable) (polarity : Bool) : Literal :=
  if polarity then
    ⟨v.id, by have := v.one_le; omega, by simpa using v.le_max⟩
  else
    ⟨-v.id, by have := v.one_le; omega, by simpa using v.le_max⟩

/-- A literal of a variable has that variable. -/
@[simp] theorem var_literal (v : Variable) (polarity : Bool) : (v.literal polarity).var = v := by
  apply Variable.ext
  cases polarity <;> simp [literal, Literal.var]

end Variable

namespace Literal

@[simp] theorem polarity_literal (v : Variable) (b : Bool) : (v.literal b).polarity = b := by
  have hone := v.one_le
  cases b
  · simp [Variable.literal, polarity]
  · simp [Variable.literal, polarity]
    omega

/-- A literal is determined by its variable and its polarity. -/
theorem ext_var {l m : Literal} (hvar : l.var = m.var) (hpolarity : l.polarity = m.polarity) :
    l = m := by
  have habs : l.value.natAbs = m.value.natAbs := congrArg Variable.id hvar
  have hl := l.ne_zero
  have hm := m.ne_zero
  apply Literal.ext
  simp only [polarity, decide_eq_decide] at hpolarity
  omega

/-- A literal is given by its variable and its polarity. -/
@[simp] theorem literal_var (l : Literal) : l.var.literal l.polarity = l :=
  ext_var (Variable.var_literal _ _) (polarity_literal _ _)

end Literal

/-- The position of a literal in tables indexed by literals: twice the number
    of its variable, plus one for a negative literal. Codes 0 and 1 stand for
    no literal. -/
structure LiteralCode where
  index : Nat
  two_le : 2 ≤ index
  le_max : index ≤ 4294967295
deriving DecidableEq, Repr

namespace LiteralCode

/-- Codes with the same index are the same. -/
@[ext] theorem ext {c d : LiteralCode} (h : c.index = d.index) : c = d := by
  cases c; cases d; simp_all

/-- The code at a table position, if a literal has it. -/
def ofIndex? (index : Nat) : Option LiteralCode :=
  if h : 2 ≤ index ∧ index ≤ 4294967295 then some ⟨index, h.1, h.2⟩ else none

/-- The number of table positions that cover every literal of the variables 1
    to `numVars`. -/
def tableLength (numVars : Nat) : Nat := 2 * numVars + 2

/-- The variable of the literal with this code. -/
def var (c : LiteralCode) : Variable :=
  ⟨c.index / 2, by have := c.two_le; omega, by have := c.le_max; omega⟩

/-- Even codes belong to positive literals. -/
def polarity (c : LiteralCode) : Bool := c.index % 2 == 0

/-- The literal with this code. -/
def literal (c : LiteralCode) : Literal := c.var.literal c.polarity

/-- The code of the complementary literal. -/
def complement (c : LiteralCode) : LiteralCode :=
  if h : c.index % 2 = 0 then
    ⟨c.index + 1, by have := c.two_le; omega, by have := c.le_max; omega⟩
  else
    ⟨c.index - 1, by have := c.two_le; omega, by have := c.le_max; omega⟩

end LiteralCode

namespace Literal

/-- The code of a literal. -/
@[inline] def code (l : Literal) : LiteralCode :=
  if l.polarity then
    ⟨2 * l.value.natAbs, by have := Int.natAbs_pos.mpr l.ne_zero; omega,
      by have := l.natAbs_le; omega⟩
  else
    ⟨2 * l.value.natAbs + 1, by have := Int.natAbs_pos.mpr l.ne_zero; omega,
      by have := l.natAbs_le; omega⟩

/-- Different literals have different codes. -/
theorem code_index_inj {l m : Literal} : l.code.index = m.code.index ↔ l = m := by
  constructor
  · intro h
    have hl := l.ne_zero
    have hm := m.ne_zero
    apply Literal.ext
    unfold code polarity at h
    split at h <;> split at h <;> simp_all <;> omega
  · rintro rfl
    rfl

end Literal

end Clausal
