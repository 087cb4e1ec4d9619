import Clausal.Proofs.Sudoku.Board
import Mathlib.Data.List.Nodup

namespace Clausal.Sudoku

namespace Order

variable {o : Order}

/-- Two places share a row, a column or a box. -/
theorem sharesUnit_iff {a b : o.Place} :
    o.sharesUnit a b = true ↔ a.1.val = b.1.val ∨ a.2.val = b.2.val ∨
      a.1.val / o.n = b.1.val / o.n ∧ a.2.val / o.n = b.2.val / o.n := by
  simp only [sharesUnit, Bool.or_eq_true, Bool.and_eq_true, beq_iff_eq, Fin.ext_iff, or_assoc]

/-- It does not matter which of two places comes first. -/
theorem sharesUnit_comm {a b : o.Place} : o.sharesUnit a b = o.sharesUnit b a := by
  rw [Bool.eq_iff_iff, sharesUnit_iff, sharesUnit_iff]
  simp only [eq_comm]

/-- A place is given by its row and column. -/
theorem place_ext {a b : o.Place} (hrow : a.1.val = b.1.val) (hcol : a.2.val = b.2.val) : a = b :=
  Prod.ext (Fin.ext hrow) (Fin.ext hcol)

/-- The row and the column of a place as numbers. -/
def coordinates (place : o.Place) : Nat × Nat := (place.1, place.2)

/-- Different places have different coordinates. -/
theorem coordinates_injective : Function.Injective (coordinates (o := o)) := by
  intro a b h
  exact place_ext (congrArg Prod.fst h) (congrArg Prod.snd h)

/-- Distinct places, as many as there are digits, any two of which share a row, a
    column or a box. -/
structure IsUnit (o : Order) (unit : List o.Place) : Prop where
  length : unit.length = o.side
  nodup : unit.Nodup
  shares : ∀ a ∈ unit, ∀ b ∈ unit, o.sharesUnit a b = true

private theorem isUnit_map {place : Fin o.side → o.Place}
    (hinjective : Function.Injective place)
    (hshares : ∀ i j, o.sharesUnit (place i) (place j) = true) :
    o.IsUnit ((List.finRange o.side).map place) := by
  refine ⟨by simp, (List.nodup_finRange _).map hinjective, ?_⟩
  simp only [List.mem_map, List.mem_finRange, true_and]
  rintro _ ⟨i, rfl⟩ _ ⟨j, rfl⟩
  exact hshares i j

private theorem map_range_eq (cell : Nat → Nat × Nat) (place : Fin o.side → o.Place)
    (h : ∀ i : Fin o.side, cell i = coordinates (place i)) :
    (List.range o.side).map cell = ((List.finRange o.side).map place).map coordinates := by
  rw [← List.map_coe_finRange_eq_range, List.map_map, List.map_map]
  exact List.map_congr_left fun i _ => h i

section Boxes

variable {n q r : Nat}

private theorem box_lt (hq : q < n) (hr : r < n) : q * n + r < n * n := by
  have hle : (q + 1) * n ≤ n * n := Nat.mul_le_mul_right n hq
  rw [Nat.succ_mul] at hle
  omega

private theorem box_div (hr : r < n) : (q * n + r) / n = q := by
  rw [Nat.mul_comm, Nat.mul_add_div (by omega), Nat.div_eq_of_lt hr, Nat.add_zero]

private theorem box_mod (hr : r < n) : (q * n + r) % n = r := by
  rw [Nat.mul_comm, Nat.mul_add_mod, Nat.mod_eq_of_lt hr]

private theorem div_lt_n (i : Fin o.side) : i.val / o.n < o.n :=
  Nat.div_lt_of_lt_mul i.isLt

private theorem mod_lt_n (i : Nat) : i % o.n < o.n := Nat.mod_lt i o.pos

/-- The place with index `i` in the box with index `k`. -/
private def boxPlace (k i : Fin o.side) : o.Place :=
  (⟨k / o.n * o.n + i / o.n, box_lt (div_lt_n k) (div_lt_n i)⟩,
    ⟨k % o.n * o.n + i % o.n, box_lt (mod_lt_n k) (mod_lt_n i)⟩)

private theorem isUnit_box (k : Fin o.side) :
    o.IsUnit ((List.finRange o.side).map (boxPlace k)) := by
  refine isUnit_map (fun i j h => ?_) fun i j => ?_
  · have hrow : k / o.n * o.n + i / o.n = k / o.n * o.n + j / o.n :=
      congrArg (fun place => place.1.val) h
    have hcol : k % o.n * o.n + i % o.n = k % o.n * o.n + j % o.n :=
      congrArg (fun place => place.2.val) h
    apply Fin.ext
    rw [← Nat.div_add_mod i.val o.n, ← Nat.div_add_mod j.val o.n, Nat.add_left_cancel hrow,
      Nat.add_left_cancel hcol]
  · refine sharesUnit_iff.mpr (.inr (.inr ⟨?_, ?_⟩))
    · rw [boxPlace, boxPlace, box_div (div_lt_n i), box_div (div_lt_n j)]
    · rw [boxPlace, boxPlace, box_div (mod_lt_n i), box_div (mod_lt_n j)]

/-- The index of the box of a place. -/
private def boxOf (a : o.Place) : Fin o.side :=
  ⟨a.1 / o.n * o.n + a.2 / o.n, box_lt (div_lt_n a.1) (div_lt_n a.2)⟩

private theorem exists_boxPlace (a : o.Place) : ∃ i, boxPlace (boxOf a) i = a := by
  refine ⟨⟨a.1 % o.n * o.n + a.2 % o.n, box_lt (mod_lt_n a.1) (mod_lt_n a.2)⟩, ?_⟩
  apply place_ext
  · simp only [boxPlace, boxOf, box_div (div_lt_n a.2), box_div (mod_lt_n (o := o) a.2)]
    rw [Nat.mul_comm, Nat.div_add_mod]
  · simp only [boxPlace, boxOf, box_mod (div_lt_n a.2), box_mod (mod_lt_n (o := o) a.2)]
    rw [Nat.mul_comm, Nat.div_add_mod]

end Boxes

private theorem mem_units {unit : List (Nat × Nat)} : unit ∈ Puzzle.units o ↔ ∃ k : Fin o.side,
    unit = ((List.finRange o.side).map fun i => (k, i)).map coordinates ∨
    unit = ((List.finRange o.side).map fun i => (i, k)).map coordinates ∨
    unit = ((List.finRange o.side).map (boxPlace k)).map coordinates := by
  have hrow (k : Fin o.side) :=
    map_range_eq (fun i => (k.val, i)) (fun i => (k, i)) fun _ => rfl
  have hcol (k : Fin o.side) :=
    map_range_eq (fun i => (i, k.val)) (fun i => (i, k)) fun _ => rfl
  have hbox (k : Fin o.side) := map_range_eq
    (fun i => (k / o.n * o.n + i / o.n, k % o.n * o.n + i % o.n)) (boxPlace k) fun _ => rfl
  simp only [Puzzle.units, List.mem_flatMap, List.mem_range, List.mem_cons, List.not_mem_nil,
    or_false, ← hrow, ← hcol, ← hbox]
  exact ⟨fun ⟨k, hk, h⟩ => ⟨⟨k, hk⟩, h⟩, fun ⟨k, h⟩ => ⟨k, k.isLt, h⟩⟩

/-- The cells of a listed unit are the places of a row, a column or a box. -/
theorem isUnit_of_mem_units {cells : List (Nat × Nat)} (h : cells ∈ Puzzle.units o) :
    ∃ unit, o.IsUnit unit ∧ cells = unit.map coordinates := by
  obtain ⟨k, rfl | rfl | rfl⟩ := mem_units.mp h
  · refine ⟨_, isUnit_map (fun i j h => congrArg Prod.snd h) fun i j => ?_, rfl⟩
    exact sharesUnit_iff.mpr (.inl rfl)
  · refine ⟨_, isUnit_map (fun i j h => congrArg Prod.fst h) fun i j => ?_, rfl⟩
    exact sharesUnit_iff.mpr (.inr (.inl rfl))
  · exact ⟨_, isUnit_box k, rfl⟩

/-- Two places that share a unit are found together in a listed one. -/
theorem exists_unit_of_sharesUnit {a b : o.Place} (h : o.sharesUnit a b = true) :
    ∃ unit : List o.Place, unit.map coordinates ∈ Puzzle.units o ∧ a ∈ unit ∧ b ∈ unit := by
  obtain ⟨row, col⟩ := a
  rcases sharesUnit_iff.mp h with hrow | hcol | ⟨hrow, hcol⟩
  · refine ⟨_, mem_units.mpr ⟨row, .inl rfl⟩, ?_, ?_⟩
    · exact List.mem_map.mpr ⟨col, List.mem_finRange col, rfl⟩
    · exact List.mem_map.mpr ⟨b.2, List.mem_finRange _, place_ext hrow rfl⟩
  · refine ⟨_, mem_units.mpr ⟨col, .inr (.inl rfl)⟩, ?_, ?_⟩
    · exact List.mem_map.mpr ⟨row, List.mem_finRange row, rfl⟩
    · exact List.mem_map.mpr ⟨b.1, List.mem_finRange _, place_ext rfl hcol⟩
  · have hbox : boxOf (row, col) = boxOf b := by simp only [boxOf, hrow, hcol]
    refine ⟨_, mem_units.mpr ⟨boxOf (row, col), .inr (.inr rfl)⟩, ?_, ?_⟩
    · obtain ⟨i, hi⟩ := exists_boxPlace (row, col)
      exact List.mem_map.mpr ⟨i, List.mem_finRange i, hi⟩
    · obtain ⟨i, hi⟩ := exists_boxPlace b
      exact List.mem_map.mpr ⟨i, List.mem_finRange i, by rw [hbox, hi]⟩

end Order

end Clausal.Sudoku
