import Clausal.Dimacs
import Clausal.Proofs.Formula
import Clausal.Proofs.Text.Fields
import Clausal.Proofs.Text.Lines
import Clausal.Proofs.Text.Numeral
import Mathlib.Data.List.Forall2

namespace Clausal.Dimacs

open Text

/-- The lines in front of the first one that starts with a percent sign, without
    blank lines and comments. -/
def contentLines (lines : List (List Char)) : List (List Char) :=
  (lines.takeWhile fun line => leading? line != some '%').filter fun line =>
    leading? line != none && leading? line != some 'c'

/-- The token is a signed 32-bit number that is 0 or a literal of one of
    `numVars` variables. -/
structure Number (numVars : Nat) (token : List Char) (value : Int) : Prop where
  signed : Numeral.Signed token value
  bounds : -2147483648 ≤ value ∧ value ≤ 2147483647
  range : value = 0 ∨ value.natAbs ≤ numVars

/-- The stretches of numbers between zeros that are not empty. -/
def groups (values : List Int) : List (List Int) :=
  (values.splitOn 0).filter fun group => !group.isEmpty

/-- The lines are a problem line with the counts in `header`, followed by lines
    that hold `values` and of which none is a problem line. -/
inductive Spells (header : Header) (values : List Int) : List (List Char) → Prop
  | intro {first vars clauses : List Char} {rest : List (List Char)}
      (hproblem : fields first = [['p'], ['c', 'n', 'f'], vars, clauses])
      (hvars : Numeral.Unsigned vars header.numVars ∧ header.numVars ≤ Variable.maxId)
      (hclauses : Numeral.Unsigned clauses header.numClauses ∧ header.numClauses < Word.bound)
      (honce : ∀ line ∈ rest, leading? line ≠ some 'p')
      (hvalues : List.Forall₂ (Number header.numVars) (rest.flatMap fields) values) :
      Spells header values (first :: rest)

/-- The kind of a line is told by its first character that is not white space. -/
theorem kind_eq (line : List Char) : LineKind.of line =
    match leading? line with
    | none => .blank
    | some 'c' => .comment
    | some '%' => .ending
    | some 'p' => .problem
    | some _ => .data := by
  rw [← head?_trimStart, LineKind.of]
  cases trimStart line with
  | nil => rfl
  | cons c rest =>
    rw [List.head?_cons]
    split <;> simp_all

variable {line : List Char}

/-- A line is a problem line if it begins with the letter p behind blanks. -/
theorem kind_eq_problem_iff : LineKind.of line = .problem ↔ leading? line = some 'p' := by
  rw [kind_eq]
  split <;> simp_all

/-- A line ends the formula if it begins with a percent sign behind blanks. -/
theorem kind_eq_ending_iff : LineKind.of line = .ending ↔ leading? line = some '%' := by
  rw [kind_eq]
  split <;> simp_all

/-- Reading goes on behind every line but an ending one. -/
theorem continues_eq (line : List Char) : continues (.ok line) = (leading? line != some '%') := by
  rw [Bool.eq_iff_iff, continues, bne_iff_ne, bne_iff_ne, ne_eq, kind_eq_ending_iff]

/-- A problem line can be read if it has four fields, the first two are the fixed words,
    and the others are numbers in range. -/
theorem readHeader_eq_ok_iff {number : Nat} {header : Header} :
    readHeader number line = .ok header ↔
      ∃ vars clauses, fields line = [['p'], ['c', 'n', 'f'], vars, clauses] ∧
        (Numeral.Unsigned vars header.numVars ∧ header.numVars ≤ Variable.maxId) ∧
        (Numeral.Unsigned clauses header.numClauses ∧ header.numClauses < Word.bound) := by
  have hmax {n : Nat} (hn : n ≤ Variable.maxId) : n < Word.bound := by
    simp only [Variable.maxId, Word.bound] at hn ⊢
    omega
  constructor
  · intro h
    unfold readHeader at h
    split at h
    · rename_i p format vars clauses hfields
      split at h
      · cases h
      rename_i hp
      split at h
      · cases h
      rename_i hformat
      split at h
      · cases h
      rename_i numVars hvars
      split at h
      · cases h
      rename_i hle
      split at h
      · cases h
      rename_i numClauses hclauses
      cases h
      rw [Decidable.not_not.mp hp, Decidable.not_not.mp hformat] at hfields
      exact ⟨vars, clauses, hfields,
        ⟨(Numeral.readWord_eq_ok_iff.mp hvars).1, Nat.le_of_not_gt hle⟩,
        Numeral.readWord_eq_ok_iff.mp hclauses⟩
    · cases h
  · rintro ⟨vars, clauses, hfields, ⟨hvars, hle⟩, hclauses⟩
    simp only [readHeader, hfields, Numeral.readWord_eq_ok_iff.mpr ⟨hvars, hmax hle⟩,
      Numeral.readWord_eq_ok_iff.mpr hclauses, Nat.not_lt.mpr hle, ne_eq, not_true_eq_false,
      if_false]

namespace Progress

/-- Takes the next number: 0 ends a clause, any other adds to it. -/
def take (progress : Progress) (value : Int) : Progress :=
  match Literal.ofInt value with
  | .ok l => { progress with pending := l :: progress.pending }
  | .error _ => progress.close

variable {progress progress' : Progress} {number numVars : Nat} {header : Header}

/-- A zero closes the pending clause. -/
theorem take_zero (progress : Progress) : progress.take 0 = progress.close := rfl

/-- The value of a literal goes to the pending clause. -/
theorem take_value (progress : Progress) (l : Literal) :
    progress.take l.value = { progress with pending := l :: progress.pending } := by
  rw [take, Literal.ofInt_value]

/-- Closing a clause keeps the header. -/
@[simp] theorem header_close (progress : Progress) : progress.close.header = progress.header := by
  unfold close
  split <;> rfl

/-- Taking in a value keeps the header. -/
@[simp] theorem header_take (progress : Progress) (value : Int) :
    (progress.take value).header = progress.header := by
  unfold take
  split
  · rfl
  · exact progress.header_close

/-- Taking in several values keeps the header. -/
@[simp] theorem header_foldl_take (values : List Int) (progress : Progress) :
    (values.foldl take progress).header = progress.header := by
  induction values generalizing progress with
  | nil => rfl
  | cons value rest ih => rw [List.foldl_cons, ih, header_take]

/-- A field can be read if it is a number in the range of the declared variables, which
    is then taken in. -/
theorem readToken_eq_ok_iff {token : List Char} (hmax : numVars ≤ Variable.maxId) :
    readToken number numVars progress token = .ok progress' ↔
      ∃ value, Number numVars token value ∧ progress.take value = progress' := by
  constructor
  · intro h
    unfold readToken at h
    split at h
    · cases h
    rename_i value hvalue
    obtain ⟨hsigned, hbounds⟩ := Numeral.readInt32_eq_ok_iff.mp hvalue
    split at h
    · rename_i hzero
      cases h
      exact ⟨value, ⟨hsigned, hbounds, .inl hzero⟩, hzero ▸ progress.take_zero⟩
    split at h
    · cases h
    rename_i l hl
    obtain rfl := Literal.ofInt_eq_ok_iff.mp hl
    split at h
    · cases h
    rename_i hle
    cases h
    exact ⟨l.value, ⟨hsigned, hbounds, .inr (Nat.le_of_not_gt hle)⟩, progress.take_value l⟩
  · rintro ⟨value, ⟨hsigned, hbounds, hrange⟩, rfl⟩
    have hread := Numeral.readInt32_eq_ok_iff.mpr ⟨hsigned, hbounds⟩
    by_cases hzero : value = 0
    · subst hzero
      simp only [readToken, hread, if_true, take_zero]
    · have hle := hrange.resolve_left hzero
      obtain ⟨l, rfl⟩ : ∃ l : Literal, l.value = value :=
        ⟨⟨value, hzero, Nat.le_trans hle hmax⟩, rfl⟩
      simp only [readToken, hread, hzero, if_false, Literal.ofInt_value, take_value]
      exact if_neg (Nat.not_lt.mpr hle)

/-- The fields of a line can be read if each is a number in range. -/
theorem foldlM_readToken_eq_ok_iff {tokens : List (List Char)} (hmax : numVars ≤ Variable.maxId) :
    tokens.foldlM (readToken number numVars) progress = .ok progress' ↔
      ∃ values, List.Forall₂ (Number numVars) tokens values ∧
        values.foldl take progress = progress' := by
  induction tokens generalizing progress with
  | nil => simp [pure, Except.pure]
  | cons token rest ih =>
    rw [foldlM_cons_eq_ok_iff]
    constructor
    · rintro ⟨next, hfirst, hrest⟩
      obtain ⟨value, hvalue, rfl⟩ := (readToken_eq_ok_iff hmax).mp hfirst
      obtain ⟨values, hvalues, rfl⟩ := ih.mp hrest
      exact ⟨value :: values, .cons hvalue hvalues, rfl⟩
    · rintro ⟨_, hnumbers, rfl⟩
      cases hnumbers with
      | cons hvalue hvalues =>
        exact ⟨_, (readToken_eq_ok_iff hmax).mpr ⟨_, hvalue, rfl⟩, ih.mpr ⟨_, hvalues, rfl⟩⟩

private theorem forall₂_append_left {α β : Type} {R : α → β → Prop} {xs ys : List α}
    {zs : List β} : List.Forall₂ R (xs ++ ys) zs ↔
      ∃ us vs, List.Forall₂ R xs us ∧ List.Forall₂ R ys vs ∧ us ++ vs = zs := by
  induction xs generalizing zs with
  | nil => simp
  | cons x xs ih =>
    simp only [List.cons_append, List.forall₂_cons_left_iff, ih]
    constructor
    · rintro ⟨z, _, hz, ⟨us, vs, hus, hvs, rfl⟩, rfl⟩
      exact ⟨z :: us, vs, ⟨z, us, hz, hus, rfl⟩, hvs, rfl⟩
    · rintro ⟨_, vs, ⟨z, us, hz, hus, rfl⟩, hvs, rfl⟩
      exact ⟨z, us ++ vs, hz, ⟨us, vs, hus, hvs, rfl⟩, rfl⟩

/-- A line of data can be read behind a problem line if its fields are numbers in range. -/
theorem readLine_data_eq_ok_iff (hdata : LineKind.of line = .data)
    (hheader : progress.header = some header) (hmax : header.numVars ≤ Variable.maxId) :
    readLine progress (.ok line, number) = .ok progress' ↔
      ∃ values, List.Forall₂ (Number header.numVars) (fields line) values ∧
        values.foldl take progress = progress' := by
  simp only [readLine, hdata, hheader]
  exact foldlM_readToken_eq_ok_iff hmax

/-- The first problem line that can be read becomes the header. -/
theorem readLine_problem_eq_ok_iff (hproblem : LineKind.of line = .problem)
    (hheader : progress.header = none) :
    readLine progress (.ok line, number) = .ok progress' ↔
      ∃ header, readHeader number (trimStart line) = .ok header ∧
        { progress with header := some header } = progress' := by
  simp only [readLine, hproblem, hheader, Option.isSome_none, Bool.false_eq_true, if_false]
  cases readHeader number (trimStart line) with
  | error cause => simp [bind, Except.bind]
  | ok header => simp [bind, Except.bind, pure, Except.pure]

variable {lines : List (List Char)} {entries : List (Except FileError (List Char) × Nat)}

/-- Behind the problem line, the lines are read as one sequence of numbers. -/
theorem foldlM_readLine_data (hentries : entries.map Prod.fst = lines.map .ok)
    (hkinds : ∀ line ∈ lines, LineKind.of line = .problem ∨ LineKind.of line = .data)
    (hheader : progress.header = some header) (hmax : header.numVars ≤ Variable.maxId) :
    entries.foldlM readLine progress = .ok progress' ↔
      (∀ line ∈ lines, leading? line ≠ some 'p') ∧
      ∃ values, List.Forall₂ (Number header.numVars) (lines.flatMap fields) values ∧
        values.foldl take progress = progress' := by
  induction lines generalizing entries progress with
  | nil =>
    obtain rfl : entries = [] := List.map_eq_nil_iff.mp hentries
    simp [pure, Except.pure]
  | cons line rest ih =>
    obtain ⟨⟨first, number⟩, others, rfl, hfirst, hothers⟩ := List.map_eq_cons_iff.mp hentries
    obtain rfl : first = .ok line := hfirst
    obtain ⟨hkind, hrest⟩ := List.forall_mem_cons.mp hkinds
    rw [foldlM_cons_eq_ok_iff, List.forall_mem_cons, List.flatMap_cons]
    rcases hkind with hproblem | hdata
    · simp [readLine, hproblem, hheader, kind_eq_problem_iff.mp hproblem]
    · have hleading : leading? line ≠ some 'p' := by simp [← kind_eq_problem_iff, hdata]
      simp only [readLine_data_eq_ok_iff hdata hheader hmax, forall₂_append_left, hleading, ne_eq,
        not_false_eq_true, true_and]
      constructor
      · rintro ⟨_, ⟨values, hvalues, rfl⟩, hread⟩
        obtain ⟨honce, values', hvalues', rfl⟩ :=
          (ih hothers hrest (by simpa using hheader)).mp hread
        exact ⟨honce, values ++ values', ⟨values, values', hvalues, hvalues', rfl⟩,
          List.foldl_append⟩
      · rintro ⟨honce, _, ⟨values, values', hvalues, hvalues', rfl⟩, rfl⟩
        refine ⟨_, ⟨values, hvalues, rfl⟩, (ih hothers hrest (by simpa using hheader)).mpr ?_⟩
        exact ⟨honce, values', hvalues', List.foldl_append.symm⟩

/-- Lines other than blank lines and comments are read if they keep to the
    grammar. -/
theorem foldlM_readLine_eq_ok_iff (hentries : entries.map Prod.fst = lines.map .ok)
    (hkinds : ∀ line ∈ lines, LineKind.of line = .problem ∨ LineKind.of line = .data) :
    entries.foldlM readLine ⟨none, [], []⟩ = .ok progress ∧ progress.header = some header ↔
      ∃ values, Spells header values lines ∧
        values.foldl take ⟨some header, [], []⟩ = progress := by
  cases lines with
  | nil =>
    obtain rfl : entries = [] := List.map_eq_nil_iff.mp hentries
    constructor
    · rintro ⟨⟨⟩, ⟨⟩⟩
    · rintro ⟨_, ⟨⟩, _⟩
  | cons line rest =>
    obtain ⟨⟨first, number⟩, others, rfl, hfirst, hothers⟩ := List.map_eq_cons_iff.mp hentries
    obtain rfl : first = .ok line := hfirst
    obtain ⟨hkind, hrest⟩ := List.forall_mem_cons.mp hkinds
    rw [foldlM_cons_eq_ok_iff]
    constructor
    · rintro ⟨⟨next, hnext, hread⟩, hheader⟩
      rcases hkind with hproblem | hdata
      · obtain ⟨header', hfound, rfl⟩ := (readLine_problem_eq_ok_iff hproblem rfl).mp hnext
        obtain ⟨vars, clauses, hfields, hvars, hclauses⟩ := readHeader_eq_ok_iff.mp hfound
        obtain ⟨honce, values, hvalues, rfl⟩ :=
          (foldlM_readLine_data hothers hrest rfl hvars.2).mp hread
        obtain rfl : header' = header := by simpa using hheader
        rw [fields_trimStart] at hfields
        exact ⟨values, .intro hfields hvars hclauses honce hvalues, rfl⟩
      · simp [readLine, hdata] at hnext
    · rintro ⟨values, ⟨hfields, hvars, hclauses, honce, hvalues⟩, rfl⟩
      have hproblem : LineKind.of line = .problem := by
        rw [kind_eq_problem_iff, ← head?_fields, hfields]
        rfl
      refine ⟨⟨⟨some header, [], []⟩, ?_, ?_⟩, by simp⟩
      · rw [readLine_problem_eq_ok_iff hproblem rfl]
        exact ⟨header, readHeader_eq_ok_iff.mpr
          ⟨_, _, (fields_trimStart line).trans hfields, hvars, hclauses⟩, rfl⟩
      · exact (foldlM_readLine_data hothers hrest rfl hvars.2).mpr ⟨honce, values, hvalues, rfl⟩

end Progress

end Clausal.Dimacs
