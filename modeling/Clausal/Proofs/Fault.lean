import Clausal.Literal

namespace Clausal

section Success

variable {ε α β : Type}

/-- One step after the other succeeds if the first does and then the second. -/
theorem bind_eq_ok_iff {x : Except ε α} {next : α → Except ε β} {b : β} :
    (x >>= next) = .ok b ↔ ∃ a, x = .ok a ∧ next a = .ok b := by
  cases x <;> simp [bind, Except.bind]

/-- An operation that may only stop at a fault succeeds with the same value where errors
    may be reported as well. -/
theorem lift_fault_eq_ok_iff {x : Except Fault α} {a : α} :
    (liftM x : Except (Failure ε) α) = .ok a ↔ x = .ok a := by
  cases x <;> simp [liftM, monadLift, MonadLift.monadLift]

/-- An operation that may only report errors succeeds with the same value where it may
    stop at a fault as well. -/
theorem lift_error_eq_ok_iff {x : Except ε α} {a : α} :
    (liftM x : Except (Failure ε) α) = .ok a ↔ x = .ok a := by
  cases x <;> simp [liftM, monadLift, MonadLift.monadLift]

/-- A result is mapped if there is one. -/
theorem map_eq_ok_iff {f : α → β} {x : Except ε α} {b : β} :
    x.map f = .ok b ↔ ∃ a, x = .ok a ∧ f a = b := by
  cases x <;> simp [Except.map]

/-- Going through a list succeeds if the first entry can be taken in and then the
    others. -/
theorem foldlM_cons_eq_ok_iff {σ : Type} {read : σ → α → Except ε σ} {entry : α}
    {entries : List α} {state state' : σ} :
    (entry :: entries).foldlM read state = .ok state' ↔
      ∃ next, read state entry = .ok next ∧ entries.foldlM read next = .ok state' := by
  rw [List.foldlM_cons, bind_eq_ok_iff]

/-- A check of every element succeeds if no element fails it. -/
theorem forM_eq_ok_iff {check : α → Except ε Unit} {xs : List α} :
    xs.forM check = .ok () ↔ ∀ x ∈ xs, check x = .ok () := by
  induction xs with
  | nil => simp [pure, Except.pure]
  | cons x xs ih =>
    rw [List.forM_eq_forM, List.forM_cons, List.forall_mem_cons, ← ih]
    cases check x <;> simp [bind, Except.bind]

/-- A traversal with steps that all succeed is a plain one. -/
theorem mapM_eq_ok {f : α → Except ε β} {g : α → β} {xs : List α}
    (h : ∀ x ∈ xs, f x = .ok (g x)) : xs.mapM f = .ok (xs.map g) := by
  induction xs with
  | nil => rfl
  | cons x xs ih =>
    obtain ⟨hx, hxs⟩ := List.forall_mem_cons.mp h
    rw [List.mapM_cons, hx, ih hxs]
    rfl

/-- A successful traversal gives one result per element. -/
theorem length_of_mapM {f : α → Except ε β} {xs : List α} {ys : List β}
    (h : xs.mapM f = .ok ys) : ys.length = xs.length := by
  induction xs generalizing ys with
  | nil =>
    cases h
    rfl
  | cons a rest ih =>
    rw [List.mapM_cons, bind_eq_ok_iff] at h
    obtain ⟨b, _, h⟩ := h
    obtain ⟨bs, hrest, h⟩ := bind_eq_ok_iff.mp h
    cases h
    rw [List.length_cons, ih hrest, List.length_cons]

/-- A question that can be answered for every element can be answered for all of
    them. -/
theorem allM_eq_ok {f : α → Except ε Bool} {g : α → Bool} {xs : List α}
    (h : ∀ x ∈ xs, f x = .ok (g x)) : xs.allM f = .ok (xs.all g) := by
  induction xs with
  | nil => rfl
  | cons x xs ih =>
    obtain ⟨hx, hxs⟩ := List.forall_mem_cons.mp h
    rw [List.allM, hx, List.all_cons]
    cases g x with
    | false => rfl
    | true => exact ih hxs

end Success

/-- The operation gives a result or reports an error about its input: it does not
    stop at a fault. -/
def Faultless {ε α : Type} (result : Except (Failure ε) α) : Prop :=
  ∀ reason, result ≠ .error (.fault reason)

namespace Faultless

variable {ε α β : Type}

theorem ok (a : α) : Faultless (.ok a : Except (Failure ε) α) := fun _ => nofun

theorem error (cause : ε) : Faultless (.error (.error cause) : Except (Failure ε) α) :=
  fun _ => nofun

/-- The second step only has to go through where the first has succeeded. -/
theorem bind {x : Except (Failure ε) α} {next : α → Except (Failure ε) β} (hx : Faultless x)
    (hnext : ∀ a, x = .ok a → Faultless (next a)) : Faultless (x >>= next) := by
  cases x with
  | error failure =>
    intro reason h
    cases h
    exact hx reason rfl
  | ok a => exact hnext a rfl

/-- A traversal stops at no fault if none of its steps does. -/
theorem mapM {f : α → Except (Failure ε) β} {xs : List α} (h : ∀ a ∈ xs, Faultless (f a)) :
    Faultless (xs.mapM f) := by
  induction xs with
  | nil => exact ok []
  | cons a rest ih =>
    obtain ⟨ha, hrest⟩ := List.forall_mem_cons.mp h
    rw [List.mapM_cons]
    exact ha.bind fun b _ => (ih hrest).bind fun bs _ => ok (b :: bs)

end Faultless

namespace Word

variable {a b c : Nat}

/-- A sum of words is computed if it is a word, and is then the exact sum. -/
theorem add_eq_ok_iff : add a b = .ok c ↔ a + b < bound ∧ a + b = c := by
  unfold add
  split <;> simp [*]

/-- A difference of words is computed if it is not negative. -/
theorem sub_eq_ok_iff : sub a b = .ok c ↔ b ≤ a ∧ a - b = c := by
  unfold sub
  split <;> simp [*]

/-- A product of words is computed if it is a word, and is then the exact product. -/
theorem mul_eq_ok_iff : mul a b = .ok c ↔ a * b < bound ∧ a * b = c := by
  unfold mul
  split <;> simp [*]

/-- A quotient is computed unless the divisor is 0. -/
theorem div_eq_ok_iff : div a b = .ok c ↔ b ≠ 0 ∧ a / b = c := by
  unfold div
  split <;> simp [*]

/-- A remainder is computed unless the divisor is 0. -/
theorem mod_eq_ok_iff : mod a b = .ok c ↔ b ≠ 0 ∧ a % b = c := by
  unfold mod
  split <;> simp [*]

/-- The number of a variable can be computed as a product. -/
theorem mul_of_le (h : a * b ≤ Variable.maxId) : mul a b = .ok (a * b) := by
  simp only [Variable.maxId] at h
  rw [mul, if_pos (by simp only [bound]; omega)]

/-- A table with one entry per admissible variable and one more fits in memory. -/
theorem table_of_le {numVars : Nat} (h : numVars ≤ Variable.maxId) :
    add numVars 1 = .ok (numVars + 1) ∧ checkTable (numVars + 1) 1 = .ok () := by
  simp only [Variable.maxId] at h
  constructor
  · rw [add, if_pos (by simp only [bound]; omega)]
  · rw [checkTable, if_pos (by simp only [maxTableBytes]; omega)]

end Word

end Clausal
