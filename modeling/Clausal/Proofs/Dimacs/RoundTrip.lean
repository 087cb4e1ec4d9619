import Clausal.Proofs.Dimacs.Parsing

namespace Clausal.Dimacs

open Text

/-- The numbers on the line of a clause, which 0 ends. -/
def terminated (c : Clause) : List Int := c.map Literal.value ++ [0]

/-- The fields of a line of numbers. -/
def numerals (values : List Int) : List (List Char) :=
  values.map fun value => (toString value).toList

/-- The fields of the lines that a formula is written as. -/
def rows (f : Formula) : List (List (List Char)) :=
  [['p'], ['c', 'n', 'f'], (toString f.numVars).toList, (toString f.clauses.length).toList] ::
    f.clauses.map fun c => numerals (terminated c)

section Writing

private theorem isToken_of_mem_numerals {values : List Int} :
    ∀ token ∈ numerals values, IsToken token :=
  List.forall_mem_map.mpr fun value _ => Numeral.isToken_toString_int value

private theorem isToken_of_mem_rows (f : Formula) :
    ∀ row ∈ rows f, ∀ token ∈ row, IsToken token := by
  refine List.forall_mem_cons.mpr ⟨?_, List.forall_mem_map.mpr fun c _ => isToken_of_mem_numerals⟩
  simp only [List.forall_mem_cons]
  exact ⟨by decide, by decide, Numeral.isToken_toString _, Numeral.isToken_toString _,
    List.forall_mem_nil _⟩

private theorem toList_render_clause (c : Clause) :
    c.render.toList = spaced (numerals (terminated c)) := by
  rw [numerals, terminated, List.map_append, List.map_map, List.map_singleton, spaced_concat,
    Clause.render, String.toList_append, String.toList_join, List.flatMap_map, List.flatMap_map]
  simp only [String.toList_append]
  rfl

/-- A formula is written as its rows, with blanks between the fields and a line
    end behind each row. -/
theorem toList_render (f : Formula) :
    f.render.toList = (rows f).flatMap fun row => spaced row ++ ['\n'] := by
  have hclauses : (String.join (f.clauses.map fun c => c.render ++ "\n")).toList =
      (f.clauses.map fun c => numerals (terminated c)).flatMap fun row => spaced row ++ ['\n'] := by
    rw [String.toList_join, List.flatMap_map, List.flatMap_map]
    simp only [String.toList_append, toList_render_clause]
    rfl
  rw [Formula.render, String.toList_append, hclauses, rows, List.flatMap_cons]
  congr 1
  simp [spaced]
  rfl

end Writing

section Reading

variable {f : Formula}

/-- Clauses that are each ended by a zero are found again as groups. -/
theorem groups_terminated {clauses : List Clause} (h : ∀ c ∈ clauses, c ≠ []) :
    groups (clauses.flatMap terminated) = clauses.map (List.map Literal.value) := by
  have hzero : ∀ values ∈ clauses.map (List.map Literal.value), (0 : Int) ∉ values := by
    refine List.forall_mem_map.mpr fun c _ hmem => ?_
    obtain ⟨l, _, hl⟩ := List.mem_map.mp hmem
    exact l.ne_zero hl
  have hsplit := splitOn_ended hzero
  rw [List.flatMap_map] at hsplit
  unfold groups terminated
  rw [hsplit, List.filter_append, List.filter_eq_self.mpr]
  · simp
  · exact List.forall_mem_map.mpr fun c hc => by simpa using h c hc

private theorem terminated_ne_nil (c : Clause) : terminated c ≠ [] := by simp [terminated]

/-- A line of numbers starts with a digit or a minus sign, so that it is neither a
    comment nor the end nor a problem line. -/
private theorem leading?_numerals {values : List Int} (h : values ≠ []) :
    ∃ c, leading? (spaced (numerals values)) = some c ∧ c ≠ '%' ∧ c ≠ 'c' ∧ c ≠ 'p' := by
  obtain ⟨value, rest, rfl⟩ := List.exists_cons_of_ne_nil h
  obtain ⟨c, cs, hcons⟩ := List.exists_cons_of_ne_nil (Numeral.isToken_toString_int value).nonempty
  have hleading : leading? (spaced (numerals (value :: rest))) = some c := by
    rw [leading?_spaced isToken_of_mem_numerals, numerals, List.map_cons, hcons]
    rfl
  have hsign : c.isDigit = true ∨ c = '-' := by
    apply Numeral.isDigit_or_minus_of_mem_toString (i := value)
    rw [hcons]
    exact List.mem_cons_self
  refine ⟨c, hleading, ?_, ?_, ?_⟩ <;> rintro rfl <;> revert hsign <;> decide

/-- No row of a rendered formula is passed over. -/
theorem contentLines_rows (f : Formula) :
    contentLines ((rows f).map spaced) = (rows f).map spaced := by
  have hleading : ∀ line ∈ (rows f).map spaced,
      ∃ c, leading? line = some c ∧ c ≠ '%' ∧ c ≠ 'c' := by
    refine List.forall_mem_map.mpr (List.forall_mem_cons.mpr ⟨?_, ?_⟩)
    · exact ⟨'p', rfl, by decide, by decide⟩
    · refine List.forall_mem_map.mpr fun c _ => ?_
      obtain ⟨first, hfirst, hending, hcomment, _⟩ := leading?_numerals (terminated_ne_nil c)
      exact ⟨first, hfirst, hending, hcomment⟩
  rw [contentLines, List.takeWhile_eq_self_iff.mpr, List.filter_eq_self.mpr]
  · intro line hline
    obtain ⟨c, hc, _, hne⟩ := hleading line hline
    simpa [hc] using hne
  · intro line hline
    obtain ⟨c, hc, hne, _⟩ := hleading line hline
    simpa [hc] using hne

/-- The lines of a well-formed formula keep to the grammar. -/
theorem spells_rows (hf : f.WellFormed) (hlength : f.clauses.length < Word.bound) :
    Spells ⟨f.numVars, f.clauses.length⟩ (f.clauses.flatMap terminated) ((rows f).map spaced) := by
  have htokens := List.forall_mem_cons.mp (isToken_of_mem_rows f)
  have hfields : ((f.clauses.map fun c => numerals (terminated c)).map spaced).flatMap fields =
      numerals (f.clauses.flatMap terminated) := by
    simp only [List.flatMap_map, numerals, List.map_flatMap]
    exact List.flatMap_congr fun c _ => fields_spaced isToken_of_mem_numerals
  rw [rows, List.map_cons]
  refine .intro (fields_spaced htokens.1) ⟨.inl (Numeral.digits_toString _), hf.numVars⟩
    ⟨.inl (Numeral.digits_toString _), hlength⟩ ?_ ?_
  · refine List.forall_mem_map.mpr (List.forall_mem_map.mpr fun c _ => ?_)
    obtain ⟨first, hfirst, _, _, hproblem⟩ := leading?_numerals (terminated_ne_nil c)
    rw [hfirst]
    exact fun heq => hproblem (Option.some.inj heq)
  · rw [hfields, numerals, List.forall₂_map_left_iff, List.forall₂_same]
    intro value hvalue
    have hrange : value = 0 ∨ value.natAbs ≤ f.numVars := by
      obtain ⟨c, hc, hmem⟩ := List.mem_flatMap.mp hvalue
      rcases List.mem_append.mp hmem with hmem | hmem
      · obtain ⟨l, hl, rfl⟩ := List.mem_map.mp hmem
        exact .inr (hf.range c hc l hl)
      · exact .inl (List.mem_singleton.mp hmem)
    have hmax := hf.numVars
    rw [Variable.maxId] at hmax
    exact ⟨Numeral.signed_toString value, by omega, hrange⟩

/-- A well-formed formula is read back from its text, which declares the clauses
    that it holds. -/
theorem parse_render (hf : f.WellFormed) (hlength : f.clauses.length < Word.bound) :
    parse (.ofString f.render) = .ok { f with declared := f.clauses.length } := by
  have hspells := spells_rows hf hlength
  rw [← contentLines_rows, ← splitLines_spaced (isToken_of_mem_rows f), ← toList_render] at hspells
  obtain ⟨clauses, hclauses, hparse⟩ := parse_of_spells hspells
  rw [groups_terminated hf.nonempty] at hclauses
  have hvalue : Function.Injective Literal.value := fun _ _ => Literal.ext
  rw [Source.ofString, hparse, hvalue.list_map.list_map hclauses]

/-- A valid formula whose clauses can be counted by a machine word is read back
    from its text: with the same variables, the same clauses in the same order,
    and the number of clauses as the declared one. -/
theorem parse_render_of_validate (hvalid : f.validate = .ok ())
    (hlength : f.clauses.length < Word.bound) :
    ∃ g, parse (.ofString f.render) = .ok g ∧ g.numVars = f.numVars ∧ g.clauses = f.clauses ∧
      g.declared = f.clauses.length :=
  ⟨_, parse_render (Formula.validate_eq_ok_iff.mp hvalid) hlength, rfl, rfl, rfl⟩

/-- A clause may repeat a literal or be a tautology, and what the formula declares
    does not matter. -/
theorem parse_render_of_repetition :
    ∃ f g, Formula.ofRows [[2, 2, -2], [-2147483647, 1], [2, 2, -2]] = .ok f ∧
      ({ f with declared := 7 } : Formula).validate = .ok () ∧
      parse (.ofString ({ f with declared := 7 } : Formula).render) = .ok g ∧
      g.numVars = 2147483647 ∧ g.clauses = f.clauses ∧ g.declared = 3 := by
  obtain ⟨f, hrows, hvalid, hvars, hlength⟩ :
      ∃ f, Formula.ofRows [[2, 2, -2], [-2147483647, 1], [2, 2, -2]] = .ok f ∧
        ({ f with declared := 7 } : Formula).validate = .ok () ∧ f.numVars = 2147483647 ∧
        f.clauses.length = 3 :=
    ⟨_, rfl, rfl, rfl, rfl⟩
  obtain ⟨g, hparse, hgvars, hgclauses, hdeclared⟩ :=
    parse_render_of_validate (f := { f with declared := 7 }) hvalid (by rw [hlength]; decide)
  exact ⟨f, g, hrows, hvalid, hparse, hgvars.trans hvars, hgclauses, hdeclared.trans hlength⟩

end Reading

end Clausal.Dimacs
