import Clausal.Text.Blank
import Mathlib.Data.List.DropRight
import Mathlib.Data.List.TakeWhile

namespace Clausal.Text

/-- The first character of a line that is not white space. -/
def leading? (line : List Char) : Option Char := line.find? fun c => !isBlank c

/-- A digit is no blank. -/
theorem isBlank_of_isDigit {c : Char} (h : c.isDigit = true) : isBlank c = false := by
  simp only [Char.isDigit, Bool.and_eq_true, decide_eq_true_eq] at h
  have hlow : 48 ≤ c.toNat := h.1
  have hhigh : c.toNat ≤ 57 := h.2
  simp only [isBlank, blankRanges, List.any_cons, List.any_nil, Bool.or_eq_false_iff,
    Bool.and_eq_false_iff, decide_eq_false_iff_not, and_true]
  omega

/-- Behind its blanks a line begins with its leading character. -/
theorem head?_trimStart (line : List Char) : (trimStart line).head? = leading? line :=
  (List.find?_not_eq_head?_dropWhile isBlank line).symm

/-- A text that is a field of its own: not empty and without white space. -/
structure IsToken (token : List Char) : Prop where
  nonempty : token ≠ []
  unbroken : ∀ c ∈ token, isBlank c = false

instance (token : List Char) : Decidable (IsToken token) :=
  decidable_of_iff (token ≠ [] ∧ token.all (fun c => !isBlank c) = true)
    ⟨fun h => ⟨h.1, by simpa using h.2⟩, fun h => ⟨h.nonempty, by simpa using h.unbroken⟩⟩

section Trimming

/-- What is left between white space starts with the first character that is not
    white space. -/
theorem head?_trim (line : List Char) : (trim line).head? = leading? line := by
  rw [← head?_trimStart, trim]
  cases hstart : trimStart line with
  | nil => rfl
  | cons c rest =>
    have hc : isBlank c = false := by
      have hleading := head?_trimStart line
      rw [hstart, List.head?_cons] at hleading
      simpa using List.find?_some hleading.symm
    have hprefix : trimEnd (c :: rest) <+: c :: rest := List.rdropWhile_prefix isBlank _
    have hne : trimEnd (c :: rest) ≠ [] := by
      intro hnil
      have hblank := List.rdropWhile_eq_nil_iff.mp hnil c List.mem_cons_self
      rw [hc] at hblank
      cases hblank
    obtain ⟨d, others, hcons⟩ := List.exists_cons_of_ne_nil hne
    rw [hcons] at hprefix ⊢
    rw [(List.cons_prefix_cons.mp hprefix).1, List.head?_cons, List.head?_cons]

/-- A text that neither starts nor ends with white space is not trimmed. -/
theorem trim_eq_self {text : List Char} (hne : text ≠ []) (hfirst : isBlank (text.head hne) = false)
    (hlast : isBlank (text.getLast hne) = false) : trim text = text := by
  have hstart : trimStart text = text := by
    obtain ⟨c, rest, rfl⟩ := List.exists_cons_of_ne_nil hne
    exact List.dropWhile_cons_of_neg (by simpa using hfirst)
  rw [trim, hstart]
  refine List.rdropWhile_eq_self_iff.mpr fun _ => ?_
  rw [hlast]
  exact Bool.false_ne_true

/-- A token has no blanks around it. -/
theorem IsToken.trim_eq {token : List Char} (h : IsToken token) : trim token = token :=
  trim_eq_self h.nonempty (h.unbroken _ (List.head_mem _)) (h.unbroken _ (List.getLast_mem _))

/-- A text between two fields keeps its white space. -/
theorem trim_between {front behind : List Char} (hfront : IsToken front) (hbehind : IsToken behind)
    (middle : List Char) : trim (front ++ (middle ++ behind)) = front ++ (middle ++ behind) := by
  have hrest : middle ++ behind ≠ [] := List.append_ne_nil_of_right_ne_nil _ hbehind.nonempty
  refine trim_eq_self (List.append_ne_nil_of_right_ne_nil _ hrest) ?_ ?_
  · rw [List.head_append_of_ne_nil hfront.nonempty]
    exact hfront.unbroken _ (List.head_mem _)
  · rw [List.getLast_append_of_ne_nil _ hrest, List.getLast_append_of_ne_nil _ hbehind.nonempty]
    exact hbehind.unbroken _ (List.getLast_mem _)

/-- Trimming makes no text longer. -/
theorem length_trim_le (text : List Char) : (trim text).length ≤ text.length :=
  Nat.le_trans (List.rdropWhile_prefix isBlank _).length_le (List.dropWhile_suffix isBlank).length_le

/-- A text is split in front of its first white space. -/
theorem splitAtBlank?_eq_some_iff {text front rest : List Char} :
    splitAtBlank? text = some (front, rest) ↔
      (∀ c ∈ front, isBlank c = false) ∧ ∃ c, isBlank c = true ∧ text = front ++ c :: rest := by
  constructor
  · intro h
    have hsplit := List.takeWhile_append_dropWhile (p := fun c => !isBlank c) (l := text)
    have hfirst := List.head?_dropWhile_not (fun c => !isBlank c) text
    rw [splitAtBlank?] at h
    cases hdrop : text.dropWhile fun c => !isBlank c with
    | nil => simp [hdrop] at h
    | cons c behind =>
      simp only [hdrop, Option.some.injEq, Prod.mk.injEq] at h
      obtain ⟨rfl, rfl⟩ := h
      rw [hdrop] at hsplit hfirst
      refine ⟨fun d hd => ?_, c, by simpa using hfirst, hsplit.symm⟩
      simpa using List.mem_takeWhile_imp hd
  · rintro ⟨hfront, c, hc, rfl⟩
    have hunbroken : ∀ d ∈ front, (!isBlank d) = true := by simpa using hfront
    have hdrop : (c :: rest).dropWhile (fun d => !isBlank d) = c :: rest :=
      List.dropWhile_cons_of_neg (by simpa using hc)
    have htake : (c :: rest).takeWhile (fun d => !isBlank d) = [] :=
      List.takeWhile_cons_of_neg (by simpa using hc)
    rw [splitAtBlank?, List.dropWhile_append_of_pos hunbroken, hdrop,
      List.takeWhile_append_of_pos hunbroken, htake, List.append_nil]

/-- The first blank behind a token ends it. -/
theorem splitAtBlank?_append {token : List Char} (h : IsToken token) (rest : List Char) :
    splitAtBlank? (token ++ ' ' :: rest) = some (token, rest) :=
  splitAtBlank?_eq_some_iff.mpr ⟨h.unbroken, ' ', by decide, rfl⟩

end Trimming

/-- The line of several texts with a blank between each two. -/
def spaced (tokens : List (List Char)) : List Char := [' '].intercalate tokens

section Fields

variable {token : List Char} {tokens : List (List Char)} {c : Char}

/-- A blank separates the fields in front of it from those behind it. -/
theorem fields_append_blank (hc : isBlank c = true) (front behind : List Char) :
    fields (front ++ c :: behind) = fields front ++ fields behind := by
  simp only [fields, List.splitOnP_append_cons front behind hc, List.filter_append]

/-- A token is a single field. -/
theorem IsToken.fields_eq (h : IsToken token) : fields token = [token] := by
  rw [fields, List.splitOnP_eq_singleton h.unbroken,
    List.filter_cons_of_pos (by simpa using h.nonempty), List.filter_nil]

/-- A blank in front makes no difference to the fields. -/
theorem fields_blank (hc : isBlank c = true) (line : List Char) :
    fields (c :: line) = fields line := fields_append_blank hc [] line

/-- White space in front of a line belongs to no field. -/
theorem fields_trimStart (line : List Char) : fields (trimStart line) = fields line := by
  induction line with
  | nil => rfl
  | cons c rest ih =>
    unfold trimStart at ih ⊢
    cases hc : isBlank c with
    | true => rw [List.dropWhile_cons_of_pos hc, ih, fields_blank hc]
    | false => rw [List.dropWhile_cons_of_neg (by simp [hc])]

/-- White space behind a line belongs to no field. -/
theorem fields_trimEnd (line : List Char) : fields (trimEnd line) = fields line := by
  change fields (line.rdropWhile isBlank) = fields line
  induction line using List.reverseRecOn with
  | nil => rfl
  | append_singleton front c ih =>
    cases hc : isBlank c with
    | true =>
      rw [List.rdropWhile_concat_pos _ _ _ hc, ih, fields_append_blank hc]
      exact (List.append_nil _).symm
    | false => rw [List.rdropWhile_concat_neg _ _ _ (by simp [hc])]

/-- Blanks around a line make no difference to its fields. -/
theorem fields_trim (line : List Char) : fields (trim line) = fields line := by
  rw [trim, fields_trimEnd, fields_trimStart]

/-- The first field of a line starts with its first character that is not white
    space. -/
theorem head?_fields (line : List Char) : (fields line).head?.bind List.head? = leading? line := by
  induction line with
  | nil => rfl
  | cons c rest ih =>
    cases hc : isBlank c with
    | true => rw [fields_blank hc, ih, leading?, leading?, List.find?_cons_of_neg (by simp [hc])]
    | false =>
      obtain ⟨first, others, hsplit⟩ :=
        List.exists_cons_of_ne_nil (List.splitOnP_ne_nil isBlank rest)
      rw [leading?, List.find?_cons_of_pos (by simp [hc]), fields,
        List.splitOnP_cons_eq_if_modifyHead, hsplit]
      simp [hc]

/-- The last token has no blank behind it. -/
theorem spaced_concat (tokens : List (List Char)) (token : List Char) :
    spaced (tokens ++ [token]) = (tokens.flatMap fun front => front ++ [' ']) ++ token := by
  induction tokens with
  | nil => exact List.intercalate_singleton
  | cons first rest ih =>
    obtain ⟨next, others, hcons⟩ := List.exists_cons_of_ne_nil (List.concat_ne_nil token rest)
    rw [List.flatMap_cons, List.append_assoc, ← ih, List.cons_append, hcons, spaced, spaced,
      List.intercalate_cons_cons]

/-- Texts that are written with blanks between them are read back. -/
theorem fields_spaced (h : ∀ token ∈ tokens, IsToken token) : fields (spaced tokens) = tokens := by
  induction tokens with
  | nil => rfl
  | cons token rest ih =>
    obtain ⟨htoken, hrest⟩ := List.forall_mem_cons.mp h
    cases rest with
    | nil => rw [spaced, List.intercalate_singleton, htoken.fields_eq]
    | cons next others =>
      rw [spaced, List.intercalate_cons_cons, List.append_assoc, List.singleton_append,
        fields_append_blank (by decide), htoken.fields_eq, List.singleton_append]
      exact congrArg (token :: ·) (ih hrest)

/-- A line of tokens begins with the first of them. -/
theorem leading?_spaced (h : ∀ token ∈ tokens, IsToken token) :
    leading? (spaced tokens) = tokens.head?.bind List.head? := by
  rw [← head?_fields, fields_spaced h]

/-- Between the pieces there are only separators. -/
theorem mem_intercalate {separator c : Char} (hc : c ∈ [separator].intercalate tokens) :
    c = separator ∨ ∃ token ∈ tokens, c ∈ token := by
  induction tokens with
  | nil => cases hc
  | cons token rest ih =>
    cases rest with
    | nil =>
      rw [List.intercalate_singleton] at hc
      exact .inr ⟨token, List.mem_singleton.mpr rfl, hc⟩
    | cons next others =>
      rw [List.intercalate_cons_cons, List.mem_append, List.mem_append, List.mem_singleton] at hc
      rcases hc with (hc | hc) | hc
      · exact .inr ⟨token, List.mem_cons_self, hc⟩
      · exact .inl hc
      · obtain hblank | ⟨token', htoken', hc⟩ := ih hc
        · exact .inl hblank
        · exact .inr ⟨token', List.mem_cons_of_mem token htoken', hc⟩

/-- A line of such texts holds no white space but the blanks between them. -/
theorem notMem_spaced (h : ∀ token ∈ tokens, IsToken token) (hc : isBlank c = true)
    (hne : c ≠ ' ') : c ∉ spaced tokens := by
  intro hmem
  rcases mem_intercalate hmem with hblank | ⟨token, htoken, hmem⟩
  · exact hne hblank
  · rw [(h token htoken).unbroken c hmem] at hc
    cases hc

end Fields

end Clausal.Text
