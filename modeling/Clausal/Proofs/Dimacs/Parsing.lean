import Clausal.Proofs.Dimacs.Grammar

namespace Clausal.Dimacs

open Text

namespace Progress

/-- Finishing the open clause adds its numbers as a group. -/
private theorem map_clauses_close (progress : Progress) :
    progress.close.clauses.reverse.map (List.map Literal.value) =
      progress.clauses.reverse.map (List.map Literal.value) ++
        groups (progress.pending.reverse.map Literal.value) := by
  have hzero : (0 : Int) ∉ progress.pending.reverse.map Literal.value := by
    intro hmem
    obtain ⟨l, _, hl⟩ := List.mem_map.mp hmem
    exact l.ne_zero hl
  rw [groups, List.splitOn_eq_singleton hzero, close]
  cases progress.pending with
  | nil => simp
  | cons l literals => simp

private theorem pending_close (progress : Progress) : progress.close.pending = [] := by
  rw [close]
  split
  · rename_i hempty
    exact List.isEmpty_iff.mp hempty
  · rfl

/-- The clauses that numbers make up are the groups that zeros part them into. -/
theorem map_clauses_foldl_take {values : List Int}
    (hvalues : ∀ value ∈ values, value.natAbs ≤ Variable.maxId) (progress : Progress) :
    (values.foldl take progress).close.clauses.reverse.map (List.map Literal.value) =
      progress.clauses.reverse.map (List.map Literal.value) ++
        groups (progress.pending.reverse.map Literal.value ++ values) := by
  induction values generalizing progress with
  | nil => rw [List.foldl_nil, map_clauses_close, List.append_nil]
  | cons value rest ih =>
    obtain ⟨hvalue, hrest⟩ := List.forall_mem_cons.mp hvalues
    rw [List.foldl_cons, ih hrest]
    by_cases hzero : value = 0
    · subst hzero
      rw [take_zero, map_clauses_close, pending_close, List.append_assoc]
      simp [groups, List.splitOn_append_cons_self]
    · obtain ⟨l, rfl⟩ : ∃ l : Literal, l.value = value := ⟨⟨value, hzero, hvalue⟩, rfl⟩
      simp [take_value]

end Progress

section Parsing

variable {text : List Char} {header : Header} {values : List Int} {f : Formula}

/-- A spelled header declares no more variables than there can be. -/
theorem Spells.numVars_le {lines : List (List Char)} (h : Spells header values lines) :
    header.numVars ≤ Variable.maxId := by
  cases h with
  | intro _ hvars => exact hvars.2

/-- Every spelled value is in the range of the declared variables. -/
theorem Spells.natAbs_le {lines : List (List Char)} (h : Spells header values lines) :
    ∀ value ∈ values, value.natAbs ≤ header.numVars := by
  obtain ⟨_, _, _, _, hvalues⟩ := h
  generalize List.flatMap fields _ = tokens at hvalues
  induction hvalues with
  | nil => exact List.forall_mem_nil _
  | cons hvalue _ ih => exact List.forall_mem_cons.mpr ⟨by have := hvalue.range; omega, ih⟩

/-- The clauses that are read are the groups of the spelled values. -/
theorem Spells.map_clauses {lines : List (List Char)} (h : Spells header values lines) :
    (values.foldl Progress.take ⟨some header, [], []⟩).close.clauses.reverse.map
      (List.map Literal.value) = groups values :=
  Progress.map_clauses_foldl_take
    (fun value hvalue => Nat.le_trans (h.natAbs_le value hvalue) h.numVars_le) _

private theorem mem_of_mem_splitOn {group : List Int} (hgroup : group ∈ values.splitOn 0)
    {value : Int} (hvalue : value ∈ group) : value ∈ values := by
  induction values generalizing group with
  | nil => simp_all
  | cons first rest ih =>
    obtain ⟨next, others, hsplit⟩ := List.exists_cons_of_ne_nil (List.splitOn_ne_nil 0 rest)
    rw [List.splitOn_cons_eq_if_modifyHead, hsplit] at hgroup
    simp only [hsplit, List.mem_cons] at ih
    split at hgroup
    · rcases List.mem_cons.mp hgroup with rfl | hgroup
      · cases hvalue
      · exact List.mem_cons_of_mem first (ih (List.mem_cons.mp hgroup) hvalue)
    · rcases List.mem_cons.mp hgroup with rfl | hgroup
      · rcases List.mem_cons.mp hvalue with rfl | hvalue
        · exact List.mem_cons_self
        · exact List.mem_cons_of_mem first (ih (.inl rfl) hvalue)
      · exact List.mem_cons_of_mem first (ih (.inr hgroup) hvalue)

/-- The clauses of a text that keeps to the grammar make up a well-formed
    formula. -/
theorem Spells.wellFormed {lines : List (List Char)} (h : Spells header values lines)
    {clauses : List Clause} (hclauses : clauses.map (List.map Literal.value) = groups values)
    (declared : Nat) : (Formula.mk clauses header.numVars declared).WellFormed := by
  have hgroup (c : Clause) (hc : c ∈ clauses) : c.map Literal.value ∈ groups values := by
    rw [← hclauses]
    exact List.mem_map_of_mem hc
  refine ⟨h.numVars_le, fun c hc hnil => ?_, fun c hc l hl => ?_⟩
  · have hnonempty := (List.mem_filter.mp (hgroup c hc)).2
    simp [hnil] at hnonempty
  · apply h.natAbs_le l.value
    exact mem_of_mem_splitOn (List.mem_filter.mp (hgroup c hc)).1 (List.mem_map_of_mem hl)

private theorem readLine_ignored {progress : Progress} {line : List Char} {number : Nat}
    (h : leading? line = none ∨ leading? line = some 'c') :
    progress.readLine (.ok line, number) = .ok progress := by
  rcases h with h | h <;> simp [Progress.readLine, kind_eq, h]

/-- Whether something is read from a line, which is so unless it is blank or a
    comment. -/
def counts : Except FileError (List Char) → Bool
  | .ok line => leading? line != none && leading? line != some 'c'
  | .error _ => true

/-- Blank lines and comments change nothing, so reading a text comes to reading
    the other lines in front of its end. -/
theorem foldlM_readLine_ofText (text : List Char) :
    ∃ entries : List (Except FileError (List Char) × Nat),
      entries.map Prod.fst = (contentLines (splitLines '\n' '\r' text)).map .ok ∧
      (((Source.ofText text).takeWhile continues).zipIdx 1).foldlM Progress.readLine
        ⟨none, [], []⟩ = entries.foldlM Progress.readLine ⟨none, [], []⟩ := by
  refine ⟨(((Source.ofText text).takeWhile continues).zipIdx 1).filter (counts ∘ Prod.fst), ?_, ?_⟩
  · rw [← List.filter_map, List.zipIdx_map_fst, Source.ofText, List.takeWhile_map, List.filter_map]
    simp only [Function.comp_def, continues_eq, counts]
    rfl
  · rw [List.foldlM_filter]
    congr 1
    funext progress entry
    obtain ⟨first, number⟩ := entry
    cases first with
    | error cause => rfl
    | ok line =>
      rw [Function.comp_apply]
      by_cases hcounts : counts (.ok line) = true
      · rw [if_pos hcounts]
      · rw [if_neg hcounts, readLine_ignored]
        · rfl
        · simpa [counts, or_iff_not_imp_left] using hcounts

/-- The lines with content are problem lines and lines of data. -/
theorem kind_of_mem_contentLines {lines : List (List Char)} {line : List Char}
    (h : line ∈ contentLines lines) :
    LineKind.of line = .problem ∨ LineKind.of line = .data := by
  obtain ⟨hmem, hcounts⟩ := List.mem_filter.mp h
  have hcontinues := List.mem_takeWhile_imp hmem
  rw [kind_eq]
  split <;> simp_all

/-- A text that spells a formula is read as that formula. -/
theorem parse_of_spells
    (h : Spells header values (contentLines (splitLines '\n' '\r' text))) :
    ∃ clauses : List Clause, clauses.map (List.map Literal.value) = groups values ∧
      parse (.ofText text) = .ok ⟨clauses, header.numVars, header.numClauses⟩ := by
  obtain ⟨entries, hentries, hread⟩ := foldlM_readLine_ofText text
  obtain ⟨hfold, hheader⟩ := (Progress.foldlM_readLine_eq_ok_iff hentries
    fun _ => kind_of_mem_contentLines).mpr ⟨values, h, rfl⟩
  refine ⟨_, h.map_clauses, ?_⟩
  simp only [parse, hread, hfold, bind, Except.bind, hheader]
  rw [Formula.ofClauses_eq_ok_iff.mpr ⟨h.wellFormed h.map_clauses _, rfl⟩]
  rfl

/-- A text that can be read spells the formula that is read. -/
theorem spells_of_parse (h : parse (.ofText text) = .ok f) :
    ∃ values, Spells ⟨f.numVars, f.declared⟩ values (contentLines (splitLines '\n' '\r' text)) ∧
      f.clauses.map (List.map Literal.value) = groups values := by
  obtain ⟨entries, hentries, hread⟩ := foldlM_readLine_ofText text
  simp only [parse, hread, bind, Except.bind] at h
  split at h
  · cases h
  rename_i progress hfold
  split at h
  · cases h
  rename_i header hheader
  obtain ⟨values, hspells, rfl⟩ := (Progress.foldlM_readLine_eq_ok_iff hentries
    fun _ => kind_of_mem_contentLines).mp ⟨hfold, hheader⟩
  split at h
  · cases h
  rename_i g hg
  obtain ⟨_, rfl⟩ := Formula.ofClauses_eq_ok_iff.mp hg
  cases h
  exact ⟨values, hspells, hspells.map_clauses⟩

/-- Reading a text of well-formed UTF-8 succeeds if and only if the text keeps to
    the grammar, however it is laid out. The formula then has the counts of the
    problem line and the groups of numbers as clauses, and it is valid. -/
theorem parse_exact (text : String) :
    match parse (.ofBytes text.toUTF8.data.toList) with
    | .ok f => f.validate = .ok () ∧ ∃ values,
        Spells ⟨f.numVars, f.declared⟩ values (contentLines (splitLines '\n' '\r' text.toList)) ∧
        f.clauses.map (List.map Literal.value) = groups values
    | .error _ => ¬ ∃ header values,
        Spells header values (contentLines (splitLines '\n' '\r' text.toList)) := by
  rw [Source.ofBytes_toUTF8, Source.ofString]
  cases hparse : parse (.ofText text.toList) with
  | ok f =>
    obtain ⟨values, hspells, hclauses⟩ := spells_of_parse hparse
    exact ⟨Formula.validate_eq_ok_iff.mpr (hspells.wellFormed hclauses f.declared), values, hspells,
      hclauses⟩
  | error cause =>
    rintro ⟨header, values, hspells⟩
    obtain ⟨clauses, _, hok⟩ := parse_of_spells hspells
    rw [hparse] at hok
    cases hok

end Parsing

end Clausal.Dimacs
