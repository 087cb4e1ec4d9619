import Clausal.Proofs.Assignment
import Clausal.Proofs.Text.Lines
import Clausal.Proofs.Text.Numeral
import Clausal.Solution.Reader

namespace Clausal

namespace Solution

open Text

/-- The line is a status line with a verdict and a number of variables. -/
def IsStatus (verdict : Verdict) (numVars : Nat) (line : List Char) : Prop :=
  ∃ code count, fields line = [['s'], ['c', 'n', 'f'], code, count] ∧
    Numeral.Signed code verdict.code ∧ Numeral.Unsigned count numVars ∧ numVars < Word.bound

/-- The number of variables in a status line is a word. -/
theorem IsStatus.numVars_lt {verdict : Verdict} {numVars : Nat} {line : List Char}
    (h : IsStatus verdict numVars line) : numVars < Word.bound := by
  obtain ⟨_, _, _, _, _, hbound⟩ := h
  exact hbound

/-- The line is a value line with the number of a literal. -/
def IsValue (l : Literal) (line : List Char) : Prop :=
  ∃ token, fields line = [['v'], token] ∧ Numeral.Signed token l.value

/-- The lines are value lines for the literals of the model, in its order, among
    which there may be blank lines and comments. -/
inductive Lists : List Literal → List (List Char) → Prop
  | nil : Lists [] []
  | idle {model : List Literal} {line : List Char} {rest : List (List Char)}
      (hline : leading? line = none ∨ leading? line = some 'c') (hrest : Lists model rest) :
      Lists model (line :: rest)
  | value {l : Literal} {model : List Literal} {line : List Char} {rest : List (List Char)}
      (hline : IsValue l line) (hrest : Lists model rest) : Lists (l :: model) (line :: rest)

/-- The lines are comments, the status line of a satisfiable formula over `numVars`
    variables, and then value lines for the literals of the model. -/
inductive Spells (numVars : Nat) (model : List Literal) : List (List Char) → Prop
  | intro {comments : List (List Char)} {status : List Char} {body : List (List Char)}
      (hcomments : ∀ line ∈ comments, leading? line = some 'c')
      (hstatus : IsStatus .satisfiable numVars status) (hbody : Lists model body) :
      Spells numVars model (comments ++ status :: body)

section Lines

variable {line : List Char} {l : Literal} {numVars number : Nat} {verdict : Verdict}

/-- The first character that is no blank begins the first field. -/
theorem leading?_of_fields {first : List Char} {others : List (List Char)}
    (h : fields line = first :: others) : leading? line = first.head? := by
  rw [← head?_fields, h]
  rfl

/-- A line without fields holds nothing but blanks. -/
theorem fields_eq_nil_iff : fields line = [] ↔ leading? line = none := by
  cases h : fields line with
  | nil => simp [← head?_fields, h]
  | cons first others =>
    have hfirst : first ≠ [] := by
      have hmem : first ∈ fields line := h ▸ List.mem_cons_self
      simpa using (List.mem_filter.mp hmem).2
    simp [leading?_of_fields h, hfirst]

/-- A verdict is known by its code and no other. -/
theorem ofCode?_eq_some_iff {code : Int} : Verdict.ofCode? code = some verdict ↔
    code = verdict.code := by
  unfold Verdict.ofCode?
  cases verdict <;> grind [Verdict.code]

/-- A status line can be read if it has three fields: the fixed word, the code of the
    verdict, and a number that is a word. -/
theorem readStatus_eq_ok_iff {tokens : List (List Char)} :
    readStatus number tokens = .ok (verdict, numVars) ↔
      ∃ code count, tokens = [['c', 'n', 'f'], code, count] ∧
        Numeral.Signed code verdict.code ∧ Numeral.Unsigned count numVars ∧
        numVars < Word.bound := by
  constructor
  · intro h
    simp only [readStatus] at h
    split at h
    · rename_i format code count
      split at h
      · cases h
      rename_i hformat
      split at h
      · cases h
      rename_i verdict' hverdict
      split at h
      · cases h
      rename_i numVars' hcount
      cases h
      cases hcode : Numeral.readInt32 code with
      | error cause => simp [hcode, Except.toOption] at hverdict
      | ok value =>
        rw [hcode] at hverdict
        obtain rfl := ofCode?_eq_some_iff.mp hverdict
        exact ⟨code, count, by rw [Decidable.not_not.mp hformat],
          (Numeral.readInt32_eq_ok_iff.mp hcode).1, Numeral.readWord_eq_ok_iff.mp hcount⟩
    · cases h
  · rintro ⟨code, count, rfl, hcode, hcount⟩
    have hread : Numeral.readInt32 code = .ok verdict.code := by
      rw [Numeral.readInt32_eq_ok_iff]
      exact ⟨hcode, by cases verdict <;> decide⟩
    simp only [readStatus, hread, Except.toOption, Option.bind_some, ofCode?_eq_some_iff.mpr rfl,
      Numeral.readWord_eq_ok_iff.mpr hcount, ne_eq, not_true_eq_false, if_false]

/-- A value line can be read if it has one field, the value of a literal in range. -/
theorem readValue_eq_ok_iff {tokens : List (List Char)} :
    readValue numVars number tokens = .ok l ↔
      ∃ token, tokens = [token] ∧ Numeral.Signed token l.value ∧ l.var.id ≤ numVars := by
  constructor
  · intro h
    unfold readValue at h
    split at h
    · rename_i token
      split at h
      · cases h
      rename_i value hvalue
      split at h
      · cases h
      rename_i l' hl
      split at h
      · cases h
      rename_i hle
      cases h
      obtain rfl := Literal.ofInt_eq_ok_iff.mp hl
      exact ⟨token, rfl, (Numeral.readInt32_eq_ok_iff.mp hvalue).1, Nat.le_of_not_gt hle⟩
    · cases h
  · rintro ⟨token, rfl, hsigned, hle⟩
    have hrange := l.natAbs_le
    have hread : Numeral.readInt32 token = .ok l.value :=
      Numeral.readInt32_eq_ok_iff.mpr ⟨hsigned, by omega, by omega⟩
    simp only [readValue, hread, Literal.ofInt_value, Nat.not_lt.mpr hle, if_false]

variable {model : Array Literal}

/-- Blank lines and comments leave the model as it is. -/
theorem readLine_idle (h : leading? line = none ∨ leading? line = some 'c') :
    readLine numVars model (.ok line, number) = .ok model := by
  cases hfields : fields line with
  | nil => simp [readLine, hfields]
  | cons first others =>
    rcases h with hnone | hcomment
    · rw [fields_eq_nil_iff.mpr hnone] at hfields
      cases hfields
    · rw [leading?_of_fields hfields] at hcomment
      simp [readLine, hfields, hcomment]

/-- A value line adds its literal as long as there is room for it. -/
theorem readLine_value (h : IsValue l line) (hl : l.var.id ≤ numVars)
    (hroom : model.size < numVars) :
    readLine numVars model (.ok line, number) = .ok (model.push l) := by
  obtain ⟨token, hfields, hsigned⟩ := h
  have hread : readValue numVars number [token] = .ok l :=
    readValue_eq_ok_iff.mpr ⟨token, rfl, hsigned, hl⟩
  simp [readLine, hfields, hroom, hread, bind, Except.bind, pure, Except.pure]

/-- A value line behind as many others as there are variables is rejected. -/
theorem readLine_full (h : IsValue l line) (hfull : numVars ≤ model.size) :
    readLine numVars model (.ok line, number) =
      .error (.malformed number (.unexpectedToken "v" model.size)) := by
  obtain ⟨token, hfields, _⟩ := h
  have hroom : ¬ model.size < numVars := Nat.not_lt.mpr hfull
  simp [readLine, hfields, hroom]

/-- Only blank lines, comments and value lines are read behind the status line. -/
theorem line_of_readLine {model' : Array Literal} {entry : Except FileError (List Char) × Nat}
    (h : readLine numVars model entry = .ok model') :
    ∃ line, entry.1 = .ok line ∧
      ((leading? line = none ∨ leading? line = some 'c') ∧ model' = model ∨
        ∃ l, IsValue l line ∧ l.var.id ≤ numVars ∧ model' = model.push l) := by
  unfold readLine at h
  split at h
  · cases h
  rename_i line number
  refine ⟨line, rfl, ?_⟩
  split at h
  · rename_i hfields
    cases h
    exact .inl ⟨.inl (fields_eq_nil_iff.mp hfields), rfl⟩
  rename_i first others hfields
  split at h
  · rename_i hcomment
    cases h
    exact .inl ⟨.inr (leading?_of_fields hfields ▸ hcomment), rfl⟩
  split at h
  · rename_i hvalue
    obtain ⟨l, hread, hpush⟩ := bind_eq_ok_iff.mp h
    obtain ⟨token, rfl, hsigned, hle⟩ := readValue_eq_ok_iff.mp hread
    cases hpush
    exact .inr ⟨l, ⟨token, hvalue.1 ▸ hfields, hsigned⟩, hle, rfl⟩
  · cases h

end Lines

section Runs

variable {numVars : Nat} {verdict : Verdict} {entries rest : Numbered} {model : List Literal}
  {lines : List (List Char)} {front : Array Literal}

/-- Looking for the status line skips comments and nothing else. -/
theorem seekStatus_eq_ok_iff : seekStatus entries = .ok ((verdict, numVars), rest) ↔
    ∃ (front : Numbered) (comments : List (List Char)) (status : List Char) (number : Nat),
      entries = front ++ (.ok status, number) :: rest ∧
      front.map Prod.fst = comments.map .ok ∧ (∀ line ∈ comments, leading? line = some 'c') ∧
      IsStatus verdict numVars status := by
  constructor
  · intro h
    fun_induction seekStatus entries with
    | case1 => cases h
    | case2 => cases h
    | case3 => cases h
    | case4 line number entries first others hfields hcomment ih =>
      obtain ⟨front, comments, status, number', rfl, hfront, hcomments, hstatus⟩ := ih h
      refine ⟨(.ok line, number) :: front, line :: comments, status, number', rfl, ?_, ?_, hstatus⟩
      · rw [List.map_cons, hfront, List.map_cons]
      · rw [← leading?_of_fields hfields] at hcomment
        exact List.forall_mem_cons.mpr ⟨hcomment, hcomments⟩
    | case5 line number entries others hfields =>
      obtain ⟨_, hread, hreturn⟩ := bind_eq_ok_iff.mp h
      cases hreturn
      obtain ⟨code, count, rfl, hsigned⟩ := readStatus_eq_ok_iff.mp hread
      exact ⟨[], [], line, number, rfl, rfl, List.forall_mem_nil _, code, count, hfields, hsigned⟩
    | case6 => cases h
  · rintro ⟨front, comments, status, number, rfl, hfront, hcomments, hstatus⟩
    induction comments generalizing front with
    | nil =>
      obtain rfl : front = [] := List.map_eq_nil_iff.mp hfront
      obtain ⟨code, count, hfields, hsigned⟩ := hstatus
      have hread : readStatus number [['c', 'n', 'f'], code, count] = .ok (verdict, numVars) :=
        readStatus_eq_ok_iff.mpr ⟨code, count, rfl, hsigned⟩
      simp [seekStatus, hfields, hread, bind, Except.bind, pure, Except.pure]
    | cons line comments ih =>
      obtain ⟨⟨_, number'⟩, others, rfl, rfl, hothers⟩ := List.map_eq_cons_iff.mp hfront
      obtain ⟨hcomment, hcomments⟩ := List.forall_mem_cons.mp hcomments
      cases hfields : fields line with
      | nil =>
        rw [fields_eq_nil_iff.mp hfields] at hcomment
        cases hcomment
      | cons first tokens =>
        rw [leading?_of_fields hfields] at hcomment
        simp only [List.cons_append, seekStatus, hfields, hcomment, if_true]
        exact ih others hothers hcomments

/-- The status line of a spelled solution is found, and the model is spelled behind it. -/
theorem Spells.seekStatus (h : Spells numVars model lines) :
    ∃ rest body, seekStatus ((lines.map .ok).zipIdx 1) = .ok ((.satisfiable, numVars), rest) ∧
      rest.map Prod.fst = body.map .ok ∧ Lists model body := by
  obtain @⟨comments, status, body, hcomments, hstatus, hbody⟩ := h
  rw [List.map_append, List.zipIdx_append, List.map_cons, List.zipIdx_cons]
  exact ⟨_, body, seekStatus_eq_ok_iff.mpr ⟨_, comments, status, _, rfl, List.zipIdx_map_fst 1 _,
    hcomments, hstatus⟩, List.zipIdx_map_fst _ _, hbody⟩

/-- As long as there is room for them, the literals of the value lines are added to
    the model. -/
theorem foldlM_readLine_of_lists (h : Lists model lines)
    (hentries : entries.map Prod.fst = lines.map .ok) (hrange : ∀ l ∈ model, l.var.id ≤ numVars)
    (hroom : front.size + model.length ≤ numVars) :
    entries.foldlM (readLine numVars) front = .ok (front ++ model.toArray) := by
  induction h generalizing entries front with
  | nil =>
    obtain rfl : entries = [] := List.map_eq_nil_iff.mp hentries
    simp [pure, Except.pure]
  | idle hline _ ih =>
    obtain ⟨⟨_, number⟩, others, rfl, rfl, hothers⟩ := List.map_eq_cons_iff.mp hentries
    rw [foldlM_cons_eq_ok_iff]
    exact ⟨front, readLine_idle hline, ih hothers hrange hroom⟩
  | @value l model _ _ hline _ ih =>
    obtain ⟨⟨_, number⟩, others, rfl, rfl, hothers⟩ := List.map_eq_cons_iff.mp hentries
    obtain ⟨hl, hrange⟩ := List.forall_mem_cons.mp hrange
    rw [List.length_cons] at hroom
    rw [foldlM_cons_eq_ok_iff]
    refine ⟨front.push l, readLine_value hline hl (by omega), ?_⟩
    rw [ih hothers hrange (by rw [Array.size_push]; omega)]
    simp

/-- The first value line for which there is no room is rejected. -/
theorem foldlM_readLine_of_overfull (h : Lists model lines)
    (hentries : entries.map Prod.fst = lines.map .ok) (hrange : ∀ l ∈ model, l.var.id ≤ numVars)
    (hfront : front.size ≤ numVars) (hmany : numVars < front.size + model.length) :
    ∃ number, entries.foldlM (readLine numVars) front =
      .error (.malformed number (.unexpectedToken "v" numVars)) := by
  induction h generalizing entries front with
  | nil =>
    simp only [List.length_nil] at hmany
    omega
  | idle hline _ ih =>
    obtain ⟨⟨_, number⟩, others, rfl, rfl, hothers⟩ := List.map_eq_cons_iff.mp hentries
    rw [List.foldlM_cons, readLine_idle hline]
    exact ih hothers hrange hfront hmany
  | @value l model _ _ hline _ ih =>
    obtain ⟨⟨_, number⟩, others, rfl, rfl, hothers⟩ := List.map_eq_cons_iff.mp hentries
    obtain ⟨hl, hrange⟩ := List.forall_mem_cons.mp hrange
    rw [List.length_cons] at hmany
    rw [List.foldlM_cons]
    by_cases hroom : front.size < numVars
    · rw [readLine_value hline hl hroom]
      exact ih hothers hrange (by rw [Array.size_push]; omega) (by rw [Array.size_push]; omega)
    · obtain hfull : front.size = numVars := by omega
      rw [readLine_full hline (Nat.le_of_eq hfull.symm), hfull]
      exact ⟨number, rfl⟩

/-- Whatever is read behind the status line comes from value lines. -/
theorem lists_of_foldlM_readLine {result : Array Literal}
    (h : entries.foldlM (readLine numVars) front = .ok result) :
    ∃ model lines, entries.map Prod.fst = lines.map .ok ∧ Lists model lines ∧
      (∀ l ∈ model, l.var.id ≤ numVars) ∧ result = front ++ model.toArray := by
  induction entries generalizing front with
  | nil =>
    cases h
    exact ⟨[], [], rfl, .nil, List.forall_mem_nil _, by simp⟩
  | cons entry others ih =>
    obtain ⟨next, hnext, hothers⟩ := foldlM_cons_eq_ok_iff.mp h
    obtain ⟨model, lines, hlines, hlists, hrange, rfl⟩ := ih hothers
    obtain ⟨line, hentry, ⟨hline, rfl⟩ | ⟨l, hline, hl, rfl⟩⟩ := line_of_readLine hnext
    · exact ⟨model, line :: lines, by rw [List.map_cons, List.map_cons, hentry, hlines],
        .idle hline hlists, hrange, rfl⟩
    · exact ⟨l :: model, line :: lines, by rw [List.map_cons, List.map_cons, hentry, hlines],
        .value hline hlists, List.forall_mem_cons.mpr ⟨hl, hrange⟩, by simp⟩

end Runs

end Solution

end Clausal
