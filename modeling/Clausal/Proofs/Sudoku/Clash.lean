import Clausal.Proofs.Sudoku.Encoding
import Mathlib.Data.Prod.Lex

namespace Clausal.Sudoku

/-- The pairs of an ascending list ascend by their first and then by their second
    element. -/
theorem pairwise_pairs {α : Type} {r : α → α → Prop} {xs : List α} (h : xs.Pairwise r) :
    (pairs xs).Pairwise (Prod.Lex r r) := by
  induction xs with
  | nil => exact .nil
  | cons x xs ih =>
    obtain ⟨hx, hxs⟩ := List.pairwise_cons.mp h
    rw [pairs, List.pairwise_append, List.pairwise_map]
    refine ⟨hxs.imp fun hab => .right x hab, ih hxs, ?_⟩
    rintro _ hfirst ⟨a, b⟩ hrest
    obtain ⟨y, _, rfl⟩ := List.mem_map.mp hfirst
    have hmem : xs.Pairwise fun a _ => a ∈ xs :=
      List.pairwise_of_forall_mem_list fun a ha _ _ => ha
    exact .left _ _ (hx a (rel_of_mem_pairs hmem hrest))

namespace Order

variable {o : Order}

/-- The places are listed row by row. -/
theorem pairwise_places (o : Order) : o.places.Pairwise fun a b => toLex a < toLex b := by
  rw [places, List.pairwise_flatMap]
  constructor
  · intro row _
    rw [List.pairwise_map]
    apply (List.pairwise_lt_finRange o.side).imp
    intro col col' hlt
    exact Prod.Lex.toLex_lt_toLex.mpr (.inr ⟨rfl, hlt⟩)
  · apply (List.pairwise_lt_finRange o.side).imp
    intro row row' hlt a ha b hb
    obtain ⟨col, _, rfl⟩ := List.mem_map.mp ha
    obtain ⟨col', _, rfl⟩ := List.mem_map.mp hb
    exact Prod.Lex.toLex_lt_toLex.mpr (.inl hlt)

/-- The pairs of places that share a unit are listed with the earlier place
    first. -/
theorem mem_peers_iff_lt {a b : o.Place} :
    (a, b) ∈ o.peers ↔ toLex a < toLex b ∧ o.sharesUnit a b = true := by
  rw [mem_peers]
  refine and_congr_left fun _ => ⟨rel_of_mem_pairs o.pairwise_places, fun hlt => ?_⟩
  have hne : a ≠ b := fun heq => hlt.ne (congrArg toLex heq)
  rcases mem_pairs_of_ne (mem_places a) (mem_places b) hne with hmem | hmem
  · exact hmem
  · exact absurd (rel_of_mem_pairs o.pairwise_places hmem) hlt.asymm

/-- The pairs of places that share a unit ascend. -/
theorem pairwise_peers (o : Order) : o.peers.Pairwise fun x y =>
    toLex (toLex x.1, toLex x.2) < toLex (toLex y.1, toLex y.2) := by
  apply List.Pairwise.filter
  apply (pairwise_pairs o.pairwise_places).imp
  intro x y hlex
  cases hlex with
  | left _ _ hlt => exact Prod.Lex.toLex_lt_toLex.mpr (.inl hlt)
  | right _ hlt => exact Prod.Lex.toLex_lt_toLex.mpr (.inr ⟨rfl, hlt⟩)

end Order

namespace Puzzle

variable {p : Puzzle}

/-- Two places share a row, a column or a box and are given the same digit. -/
def ClashAt (p : Puzzle) (a b : p.order.Place) : Prop :=
  (a.1.val = b.1.val ∨ a.2.val = b.2.val ∨
    a.1.val / p.order.n = b.1.val / p.order.n ∧ a.2.val / p.order.n = b.2.val / p.order.n) ∧
  p.givenAt a ≠ 0 ∧ p.givenAt a = p.givenAt b

instance (p : Puzzle) (a b : p.order.Place) : Decidable (p.ClashAt a b) :=
  inferInstanceAs (Decidable (_ ∧ _))

/-- Two places clash, and they come first among those that do. Places are ordered
    row by row, and pairs of them by their earlier and then by their later
    place. -/
structure FirstClash (p : Puzzle) (a b : p.order.Place) : Prop where
  inOrder : toLex a < toLex b
  clash : p.ClashAt a b
  first : ∀ a' b', toLex a' < toLex b' → p.ClashAt a' b' →
    toLex (toLex a, toLex b) ≤ toLex (toLex a', toLex b')

/-- There is only one first clash. -/
theorem FirstClash.unique {a b a' b' : p.order.Place} (h : p.FirstClash a b)
    (h' : p.FirstClash a' b') : a = a' ∧ b = b' := by
  have hle := h.first a' b' h'.inOrder h'.clash
  have hge := h'.first a b h.inOrder h.clash
  simpa using toLex_inj.mp (le_antisymm hle hge)

/-- Two places in a unit clash if they hold the same digit. -/
theorem clash?_eq_some_iff (hp : p.WellFormed) {a b : p.order.Place}
    (hshares : p.order.sharesUnit a b = true) {cause : Error} :
    p.clash? a b = some cause ↔
      p.ClashAt a b ∧ cause = .inconsistentPuzzle a.1 a.2 b.1 b.2 (p.givenAt a) := by
  have hle : p.givenAt a ≤ p.side := hp.digits a.1 a.2
  have hunit := Order.sharesUnit_iff.mp hshares
  have hgiven : (1 ≤ p.givenAt a ∧ p.givenAt a ≤ p.side ∧ p.givenAt b = p.givenAt a) ↔
      p.ClashAt a b := by
    rw [ClashAt]
    omega
  simp only [clash?, hgiven, Option.ite_none_right_eq_some, Option.some.injEq]
  rw [eq_comm (a := cause)]

/-- The clash that is found is the first one. -/
theorem firstClash_of_findSome? (hp : p.WellFormed) {cause : Error}
    (hfind : (p.order.peers.findSome? fun (a, b) => p.clash? a b) = some cause) :
    ∃ a b, p.FirstClash a b ∧ cause = .inconsistentPuzzle a.1 a.2 b.1 b.2 (p.givenAt a) := by
  obtain ⟨before, ⟨a, b⟩, after, hpeers, hcause, hbefore⟩ := List.findSome?_eq_some_iff.mp hfind
  obtain ⟨hlt, hshares⟩ := Order.mem_peers_iff_lt.mp
    (show (a, b) ∈ p.order.peers by rw [hpeers]; simp)
  obtain ⟨hclash, rfl⟩ := (clash?_eq_some_iff hp hshares).mp hcause
  refine ⟨a, b, ⟨hlt, hclash, fun a' b' hlt' hclash' => ?_⟩, rfl⟩
  have hshares' := Order.sharesUnit_iff.mpr hclash'.1
  have hmem : (a', b') ∈ before ++ (a, b) :: after := by
    rw [← hpeers]
    exact Order.mem_peers_iff_lt.mpr ⟨hlt', hshares'⟩
  -- A clash in front of the one that is found would have been found, and one behind it
  -- comes later, because the pairs ascend.
  rcases List.mem_append.mp hmem with hmem | hmem
  · have hnone := hbefore _ hmem
    dsimp only at hnone
    rw [(clash?_eq_some_iff hp hshares').mpr ⟨hclash', rfl⟩] at hnone
    cases hnone
  · have hsorted := p.order.pairwise_peers
    rw [hpeers, List.pairwise_append, List.pairwise_cons] at hsorted
    rcases List.mem_cons.mp hmem with heq | hmem
    · cases heq
      exact le_rfl
    · exact (hsorted.2.1.1 _ hmem).le

/-- An encoding that fails names the first clash. -/
theorem firstClash_of_toFormula (hp : p.WellFormed) {failure : Failure Error}
    (h : p.toFormula = .error failure) : ∃ a b, p.FirstClash a b ∧
      failure = .error (.inconsistentPuzzle a.1 a.2 b.1 b.2 (p.givenAt a)) := by
  rw [toFormula_eq hp] at h
  split at h
  · rename_i cause hfind
    cases h
    obtain ⟨a, b, hfirst, rfl⟩ := firstClash_of_findSome? hp hfind
    exact ⟨a, b, hfirst, rfl⟩
  · cases h

/-- A puzzle can be encoded if no places clash. -/
theorem exists_toFormula_iff (hp : p.WellFormed) : (∃ f, p.toFormula = .ok f) ↔ ¬ p.Clashes := by
  obtain ⟨hclashes, _, _, _, _, _, herror⟩ | ⟨hclashes, hok⟩ := toFormula_spec hp
  · simp [herror, hclashes]
  · simp [hok, hclashes]

/-- A puzzle is rejected if and only if two of its givens clash, and the error then
    names the first two that do. Nothing else can go wrong: the literals of all
    places and digits exist, and the formula is accepted with all its clauses. -/
theorem toFormula_rejects_first_clash {b : Board} (hboard : ofBoard b = .ok p) :
    ((∃ failure, p.toFormula = .error failure) ↔ p.Clashes) ∧
    (∀ failure, p.toFormula = .error failure → ∃ a b, p.FirstClash a b ∧
      failure = .error (.inconsistentPuzzle a.1 a.2 b.1 b.2 (p.givenAt a))) ∧
    (¬ p.Clashes → ∃ f, p.toFormula = .ok f ∧ f.numVars = p.order.n ^ 6) ∧
    (∀ place digit, 1 ≤ digit → digit ≤ p.side →
      ∃ l, p.givenLiteral place digit = .ok l ∧ l.var.id ≤ p.order.n ^ 6) ∧
    ∀ clauses, p.clauses = .ok clauses → ∃ f, p.formulaOf clauses = .ok f := by
  obtain ⟨_, hp⟩ := ofBoard_eq_ok_iff.mp hboard
  refine ⟨?_, fun failure hfailure => firstClash_of_toFormula hp hfailure, fun hclashes => ?_,
    fun place digit hone hle => ?_, fun clauses hclauses => ?_⟩
  · rw [← not_iff_not, ← exists_toFormula_iff hp]
    cases p.toFormula with
    | error failure => simp
    | ok f => simp
  · obtain ⟨hclash, _⟩ | ⟨_, hok⟩ := toFormula_spec hp
    · exact absurd hclash hclashes
    · exact ⟨_, hok, p.order.numVars_eq_pow⟩
  · obtain ⟨d, rfl⟩ := Nat.exists_eq_add_of_le' hone
    refine ⟨_, givenLiteral_eq place ⟨d, hle⟩, ?_⟩
    rw [← Order.numVars_eq_pow, Order.holds, Variable.var_literal]
    exact p.order.variable_le place ⟨d, hle⟩
  · rw [clauses_eq hp] at hclauses
    split at hclauses
    · cases hclauses
    · cases hclauses
      exact ⟨_, formulaOf_rules hp⟩

/-- A board with clashes in a box and in a column, and one without. -/
theorem toFormula_rejects_first_clash_of_boards :
    (∃ p a b, ofBoard [[1, 0, 0, 0], [0, 1, 0, 2], [3, 0, 0, 2], [3, 0, 0, 1]] = .ok p ∧
      p.toFormula = .error (.error (.inconsistentPuzzle 0 0 1 1 1)) ∧ p.FirstClash a b) ∧
    ∃ p f, ofBoard [[1, 0, 0, 0], [0, 0, 3, 0], [0, 4, 0, 0], [0, 0, 0, 2]] = .ok p ∧
      p.toFormula = .ok f ∧ f.numVars = 64 := by
  constructor
  · let p : Puzzle :=
      ⟨⟨2, by decide, by decide⟩, [[1, 0, 0, 0], [0, 1, 0, 2], [3, 0, 0, 2], [3, 0, 0, 1]]⟩
    have hp : p.WellFormed := wellFormed_of_square ⟨rfl, by decide⟩ (by decide)
    have hboard : ofBoard p.board = .ok p := ofBoard_eq_ok_iff.mpr ⟨rfl, hp⟩
    have hclashes : p.Clashes := by decide
    obtain ⟨hrejects, hfirst, _⟩ := toFormula_rejects_first_clash hboard
    obtain ⟨failure, hfailure⟩ := hrejects.mpr hclashes
    obtain ⟨a, b, hab, rfl⟩ := hfirst failure hfailure
    refine ⟨p, a, b, hboard, ?_, hab⟩
    have hcorner : p.FirstClash ((0 : Fin 4), (0 : Fin 4)) ((1 : Fin 4), (1 : Fin 4)) :=
      ⟨by decide, by decide, by decide⟩
    obtain ⟨rfl, rfl⟩ := hab.unique hcorner
    exact hfailure
  · let p : Puzzle :=
      ⟨⟨2, by decide, by decide⟩, [[1, 0, 0, 0], [0, 0, 3, 0], [0, 4, 0, 0], [0, 0, 0, 2]]⟩
    have hp : p.WellFormed := wellFormed_of_square ⟨rfl, by decide⟩ (by decide)
    have hboard : ofBoard p.board = .ok p := ofBoard_eq_ok_iff.mpr ⟨rfl, hp⟩
    obtain ⟨f, hok, hnumVars⟩ := (toFormula_rejects_first_clash hboard).2.2.1 (by decide)
    exact ⟨p, f, hboard, hok, hnumVars⟩

/-- A board is that of a legal grid if and only if it has a digit at every place and
    no two of them clash. -/
theorem exists_grid_iff (hp : p.WellFormed) :
    (∃ g : Grid p.order, g.Legal ∧ p.board = g.board) ↔
      (∀ place, p.givenAt place ≠ 0) ∧ ¬ p.Clashes := by
  rw [not_clashes_iff]
  constructor
  · rintro ⟨g, hlegal, hboard⟩
    have hdigit (place : p.order.Place) : p.givenAt place = (g place).val + 1 := by
      rw [givenAt, hboard, Grid.digitAt_board]
    refine ⟨fun place => by simp [hdigit], fun a b hne hshares heq => ?_⟩
    rw [hdigit, hdigit, Nat.succ_inj] at heq
    exact absurd (Fin.ext heq) (hlegal a b hne hshares)
  · rintro ⟨hfilled, hclashes⟩
    have hdigit (place : p.order.Place) : ∃ d : Fin p.order.side, p.givenAt place = d.val + 1 := by
      obtain ⟨d, hzero | hd⟩ := hp.exists_allows place
      · exact absurd hzero (hfilled place)
      · exact ⟨d, hd⟩
    choose g hg using hdigit
    refine ⟨g, fun a b hne hshares heq => ?_, board_eq_of_givenAt hp.square hg⟩
    exact hfilled a (hclashes a b hne hshares (by rw [hg, hg, heq]))

/-- The check of a solved board, which compares the digits of every row, column and
    box with all digits, and the encoder, which compares the digits of every two
    places, go by the same rules. -/
theorem isSolved_iff_filled_and_encoded {b : Board} (hboard : ofBoard b = .ok p) :
    ∃ solved, p.isSolved = .ok solved ∧
      (solved = true ↔ (∀ cells ∈ p.board, 0 ∉ cells) ∧ ∃ f, p.toFormula = .ok f) := by
  obtain ⟨_, hp⟩ := ofBoard_eq_ok_iff.mp hboard
  obtain ⟨solved, hsolved⟩ : ∃ solved, p.isSolved = .ok solved := ⟨_, isSolved_eq hp.square⟩
  have hfilled : (∀ cells ∈ p.board, 0 ∉ cells) ↔ ∀ place, p.givenAt place ≠ 0 := by
    rw [hp.square.filled_iff]
    constructor
    · exact fun h place => h place.1 place.1.isLt place.2 place.2.isLt
    · exact fun h row hrow col hcol => h (⟨row, hrow⟩, ⟨col, hcol⟩)
  refine ⟨solved, hsolved, ?_⟩
  rw [hfilled, exists_toFormula_iff hp, ← exists_grid_iff hp, ← isSolved_iff_exists_grid hp.square,
    hsolved, Except.ok.injEq]

/-- A solved board, and one with repeated digits in its boxes. -/
theorem isSolved_iff_filled_and_encoded_of_boards :
    (∃ p, ofBoard [[1, 2, 3, 4], [3, 4, 1, 2], [2, 1, 4, 3], [4, 3, 2, 1]] = .ok p ∧
      p.isSolved = .ok true) ∧
    ∃ p, ofBoard [[1, 2, 3, 4], [2, 1, 4, 3], [3, 4, 1, 2], [4, 3, 2, 1]] = .ok p ∧
      p.isSolved = .ok false := by
  constructor
  · let p : Puzzle :=
      ⟨⟨2, by decide, by decide⟩, [[1, 2, 3, 4], [3, 4, 1, 2], [2, 1, 4, 3], [4, 3, 2, 1]]⟩
    have hp : p.WellFormed := wellFormed_of_square ⟨rfl, by decide⟩ (by decide)
    have hboard : ofBoard p.board = .ok p := ofBoard_eq_ok_iff.mpr ⟨rfl, hp⟩
    obtain ⟨solved, hsolved, hiff⟩ := isSolved_iff_filled_and_encoded hboard
    refine ⟨p, hboard, ?_⟩
    rw [hsolved, hiff.mpr ⟨by decide, (exists_toFormula_iff hp).mpr (by decide)⟩]
  · -- Every row and every column is complete, and no box is.
    let p : Puzzle :=
      ⟨⟨2, by decide, by decide⟩, [[1, 2, 3, 4], [2, 1, 4, 3], [3, 4, 1, 2], [4, 3, 2, 1]]⟩
    have hp : p.WellFormed := wellFormed_of_square ⟨rfl, by decide⟩ (by decide)
    have hboard : ofBoard p.board = .ok p := ofBoard_eq_ok_iff.mpr ⟨rfl, hp⟩
    have hclashes : p.Clashes := by decide
    obtain ⟨solved, hsolved, hiff⟩ := isSolved_iff_filled_and_encoded hboard
    refine ⟨p, hboard, ?_⟩
    rw [hsolved, Except.ok.injEq, Bool.eq_false_iff, ne_eq, hiff]
    exact fun h => (exists_toFormula_iff hp).mp h.2 hclashes

end Puzzle

end Clausal.Sudoku
