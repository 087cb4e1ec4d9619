namespace Clausal

variable {α : Type}

/-- A list is ascending if every element is smaller than all behind it. -/
def Ascending [Ord α] (elements : List α) : Prop :=
  elements.Pairwise fun a b => compare a b = .lt

/-- Replaces every run of equal neighbours by a single element. -/
def collapse [DecidableEq α] (elements : List α) : List α :=
  elements.foldr
    (fun element rest => if rest.head? = some element then rest else element :: rest) []

/-- The elements in ascending order, each once. -/
def sortDistinct [Ord α] [DecidableEq α] (elements : List α) : List α :=
  collapse (elements.mergeSort fun a b => (compare a b).isLE)

section Collapse

variable [DecidableEq α]

/-- The first element stays unless the rest begins with it. -/
theorem collapse_cons (a : α) (elements : List α) :
    collapse (a :: elements) =
      if (collapse elements).head? = some a then collapse elements else a :: collapse elements :=
  rfl

theorem collapse_sublist (elements : List α) : (collapse elements).Sublist elements := by
  induction elements with
  | nil => exact .slnil
  | cons a rest ih =>
    rw [collapse_cons]
    split
    · exact ih.cons a
    · exact ih.cons_cons a

/-- Dropping repetitions drops no element. -/
@[simp] theorem mem_collapse {a : α} {elements : List α} :
    a ∈ collapse elements ↔ a ∈ elements := by
  induction elements with
  | nil => rfl
  | cons b rest ih =>
    rw [collapse_cons, List.mem_cons, ← ih]
    split
    · rename_i hhead
      have hmem := List.mem_of_mem_head? (Option.mem_def.mpr hhead)
      constructor
      · exact Or.inr
      · rintro (rfl | h)
        · exact hmem
        · exact h
    · exact List.mem_cons

/-- A list without equal neighbours stays as it is. -/
theorem collapse_of_ascending [Ord α] [Std.ReflOrd α] {elements : List α}
    (h : Ascending elements) : collapse elements = elements := by
  induction elements with
  | nil => rfl
  | cons a rest ih =>
    obtain ⟨hfirst, hrest⟩ := List.pairwise_cons.mp h
    rw [collapse_cons, ih hrest, if_neg]
    intro hhead
    have hless := hfirst a (List.mem_of_mem_head? (Option.mem_def.mpr hhead))
    rw [Std.ReflOrd.compare_self] at hless
    cases hless

/-- In a sorted list equal elements are neighbours, so none is left twice. -/
theorem ascending_collapse [Ord α] [Std.TransOrd α] [Std.LawfulEqOrd α] {elements : List α}
    (h : elements.Pairwise fun a b => (compare a b).isLE) : Ascending (collapse elements) := by
  induction elements with
  | nil => exact .nil
  | cons a rest ih =>
    obtain ⟨hfirst, hrest⟩ := List.pairwise_cons.mp h
    have hascending := ih hrest
    rw [collapse_cons]
    split
    · exact hascending
    · rename_i hhead
      refine List.pairwise_cons.mpr ⟨fun b hb => ?_, hascending⟩
      have hle := hfirst b (mem_collapse.mp hb)
      cases hcompare : compare a b with
      | lt => rfl
      | gt => simp [hcompare] at hle
      | eq =>
        have heq := Std.LawfulEqOrd.eq_of_compare hcompare
        subst heq
        exfalso
        cases hcollapsed : collapse rest with
        | nil => simp [hcollapsed] at hb
        | cons c others =>
          rw [hcollapsed] at hb hhead hascending
          rcases List.mem_cons.mp hb with rfl | hmem
          · exact hhead rfl
          · have hless := (List.pairwise_cons.mp hascending).1 a hmem
            have hback := hfirst c (mem_collapse.mp (by simp [hcollapsed]))
            exact Std.OrientedCmp.not_lt_of_isLE hback hless

end Collapse

section SortDistinct

variable [Ord α] [DecidableEq α]

/-- Sorting without repetition keeps exactly the elements. -/
@[simp] theorem mem_sortDistinct {a : α} {elements : List α} :
    a ∈ sortDistinct elements ↔ a ∈ elements := by
  simp [sortDistinct]

/-- Sorting without repetition does not make a list longer. -/
theorem length_sortDistinct_le (elements : List α) :
    (sortDistinct elements).length ≤ elements.length := by
  have h := (collapse_sublist (elements.mergeSort fun a b => (compare a b).isLE)).length_le
  simpa [sortDistinct] using h

/-- The result is in strictly ascending order. -/
theorem ascending_sortDistinct [Std.TransOrd α] [Std.LawfulEqOrd α] (elements : List α) :
    Ascending (sortDistinct elements) := by
  apply ascending_collapse
  apply List.pairwise_mergeSort
  · intro a b c hab hbc
    exact Std.TransOrd.isLE_trans hab hbc
  · intro a b
    cases h : compare a b
    · simp
    · simp
    · simp [Std.OrientedOrd.eq_swap (a := b), h]

/-- An ascending list is its own sorted form. -/
theorem sortDistinct_of_ascending [Std.ReflOrd α] {elements : List α}
    (h : Ascending elements) : sortDistinct elements = elements := by
  unfold sortDistinct
  rw [List.mergeSort_of_pairwise, collapse_of_ascending h]
  exact h.imp fun hless => by simp [hless]

end SortDistinct

end Clausal
