import Clausal.Proofs.Text.Fields
import Clausal.Text.Source
import Mathlib.Data.List.Basic

namespace Clausal.Text

/-- A text has at most one piece more than it has elements. -/
theorem length_splitOn_le {α : Type} [DecidableEq α] (separator : α) (text : List α) :
    (text.splitOn separator).length ≤ text.length + 1 := by
  induction text with
  | nil => exact Nat.le_refl 1
  | cons c rest ih =>
    rw [List.splitOn_cons_eq_if_modifyHead]
    split
    · exact Nat.succ_le_succ ih
    · rw [List.length_modifyHead]
      exact Nat.le_succ_of_le ih

section Ended

variable {α : Type} [DecidableEq α] {newline carriage : α} {lines : List (List α)}

/-- Lines with their ends and one without are found again. -/
theorem splitOn_ended_append (hnewline : ∀ line ∈ lines, newline ∉ line) {last : List α}
    (hlast : newline ∉ last) :
    ((lines.flatMap fun line => line ++ [newline]) ++ last).splitOn newline = lines ++ [last] := by
  induction lines with
  | nil => exact List.splitOn_eq_singleton hlast
  | cons line rest ih =>
    obtain ⟨hline, hrest⟩ := List.forall_mem_cons.mp hnewline
    rw [List.flatMap_cons, List.append_assoc, List.append_assoc, List.singleton_append,
      List.splitOn_append_cons_self_of_not_mem hline, ih hrest, List.cons_append]

/-- Behind the last line end there is an empty piece. -/
theorem splitOn_ended (hnewline : ∀ line ∈ lines, newline ∉ line) :
    (lines.flatMap fun line => line ++ [newline]).splitOn newline = lines ++ [[]] := by
  have hsplit := splitOn_ended_append hnewline (List.not_mem_nil (a := newline))
  rwa [List.append_nil] at hsplit

/-- Lines that are written with an end each are read back. -/
theorem splitLines_ended (hnewline : ∀ line ∈ lines, newline ∉ line)
    (hcarriage : ∀ line ∈ lines, carriage ∉ line) :
    splitLines newline carriage (lines.flatMap fun line => line ++ [newline]) = lines := by
  have hkept : ∀ line ∈ lines,
      (if line.getLast? = some carriage then line.dropLast else line) = line := by
    intro line hline
    rw [if_neg]
    intro hlast
    exact hcarriage line hline (List.mem_of_getLast? hlast)
  simp only [splitLines, splitOn_ended hnewline, List.dropLast_concat, List.getLast?_concat]
  rw [List.map_congr_left hkept]
  simp

/-- Rows of texts that are written as lines with blanks between the texts are
    split into these lines. -/
theorem splitLines_spaced {rows : List (List (List Char))}
    (h : ∀ row ∈ rows, ∀ token ∈ row, IsToken token) :
    splitLines '\n' '\r' (rows.flatMap fun row => spaced row ++ ['\n']) = rows.map spaced := by
  have hlines := @splitLines_ended Char _ '\n' '\r' (rows.map spaced)
  simp only [List.forall_mem_map, List.flatMap_map] at hlines
  apply hlines
  · exact fun row hrow => notMem_spaced (h row hrow) (by decide) (by decide)
  · exact fun row hrow => notMem_spaced (h row hrow) (by decide) (by decide)

end Ended

/-- The bytes of a text in UTF-8. -/
def utf8Bytes (text : List Char) : List UInt8 := text.flatMap String.utf8EncodeChar

@[simp] theorem utf8Bytes_nil : utf8Bytes [] = [] := rfl

theorem utf8Bytes_cons (c : Char) (text : List Char) :
    utf8Bytes (c :: text) = String.utf8EncodeChar c ++ utf8Bytes text := List.flatMap_cons

/-- Texts are encoded one after the other. -/
theorem utf8Bytes_append (text text' : List Char) :
    utf8Bytes (text ++ text') = utf8Bytes text ++ utf8Bytes text' := List.flatMap_append

/-- Only the empty text has no bytes. -/
theorem utf8Bytes_eq_nil {text : List Char} : utf8Bytes text = [] ↔ text = [] := by
  cases text <;> simp [utf8Bytes_cons, String.utf8EncodeChar_ne_nil]

/-- Every character has a byte at least. -/
theorem length_le_length_utf8Bytes (text : List Char) : text.length ≤ (utf8Bytes text).length := by
  induction text with
  | nil => exact Nat.le_refl 0
  | cons c rest ih =>
    have hc : 0 < (String.utf8EncodeChar c).length :=
      List.length_pos_iff.mpr String.utf8EncodeChar_ne_nil
    rw [utf8Bytes_cons, List.length_append, List.length_cons]
    omega

/-- The bytes of a string are those of its characters. -/
theorem toList_toUTF8 (text : String) : text.toUTF8.data.toList = utf8Bytes text.toList := by
  rw [String.toUTF8, ← String.utf8Encode_toList, List.utf8Encode, List.toList_data_toByteArray]
  rfl

/-- A text has no more characters than bytes. -/
theorem length_le_utf8ByteSize (text : String) : text.toList.length ≤ text.utf8ByteSize := by
  have hsize : text.utf8ByteSize = (utf8Bytes text.toList).length := by
    rw [← toList_toUTF8]
    rfl
  rw [hsize]
  exact length_le_length_utf8Bytes _

section Ascii

variable {b : UInt8} {c : Char}

private theorem le_of_mem_utf8EncodeChar (hc : 127 < c.val.toNat)
    (hb : b ∈ String.utf8EncodeChar c) : 128 ≤ b.toNat := by
  rw [String.utf8EncodeChar.eq_1, if_neg (Nat.not_le.mpr hc)] at hb
  split at hb
  · simp only [List.mem_cons, List.not_mem_nil, or_false] at hb
    rcases hb with rfl | rfl <;> simp only [UInt8.toNat_ofNat'] <;> omega
  · split at hb
    · simp only [List.mem_cons, List.not_mem_nil, or_false] at hb
      rcases hb with rfl | rfl | rfl <;> simp only [UInt8.toNat_ofNat'] <;> omega
    · simp only [List.mem_cons, List.not_mem_nil, or_false] at hb
      rcases hb with rfl | rfl | rfl | rfl <;> simp only [UInt8.toNat_ofNat'] <;> omega

/-- A byte below 128 only occurs in the encoding of the character with that
    number. -/
private theorem toNat_of_mem_utf8EncodeChar (hb : b ∈ String.utf8EncodeChar c)
    (hascii : b.toNat < 128) : c.val.toNat = b.toNat := by
  by_cases hc : c.val.toNat ≤ 127
  · rw [String.utf8EncodeChar.eq_1, if_pos hc, List.mem_singleton] at hb
    rw [hb, UInt8.toNat_ofNat']
    omega
  · have hle := le_of_mem_utf8EncodeChar (Nat.not_le.mp hc) hb
    omega

private theorem newline_notMem (hc : c ≠ '\n') : 10 ∉ String.utf8EncodeChar c :=
  fun hb => hc (Char.toNat_inj.mp (toNat_of_mem_utf8EncodeChar hb (by decide)))

private theorem carriage_notMem (hc : c ≠ '\r') : 13 ∉ String.utf8EncodeChar c :=
  fun hb => hc (Char.toNat_inj.mp (toNat_of_mem_utf8EncodeChar hb (by decide)))

end Ascii

section Encoded

private theorem splitOn_append_of_notMem {α : Type} [DecidableEq α] {newline : α} {front : List α}
    (h : newline ∉ front) (behind : List α) :
    (front ++ behind).splitOn newline = (behind.splitOn newline).modifyHead (front ++ ·) := by
  induction front with
  | nil => exact (congrFun List.modifyHead_id _).symm
  | cons a rest ih =>
    obtain ⟨ha, hrest⟩ := List.ne_and_not_mem_of_not_mem_cons h
    rw [List.cons_append, List.splitOn_cons_eq_if_modifyHead, if_neg (by simpa using Ne.symm ha),
      ih hrest, List.modifyHead_modifyHead]
    rfl

/-- A byte of a line end is a line end, so bytes and characters are cut at the same
    places. -/
theorem splitOn_utf8Bytes (text : List Char) :
    (utf8Bytes text).splitOn 10 = (text.splitOn '\n').map utf8Bytes := by
  induction text with
  | nil => rfl
  | cons c rest ih =>
    rw [utf8Bytes_cons, List.splitOn_cons_eq_if_modifyHead]
    by_cases hc : c = '\n'
    · subst hc
      rw [if_pos (by rfl), List.map_cons, ← ih]
      exact List.splitOn_append_cons_self [] _
    · rw [if_neg (by simpa using hc), splitOn_append_of_notMem (newline_notMem hc), ih]
      cases rest.splitOn '\n' with
      | nil => rfl
      | cons line others => simp [utf8Bytes_cons]

/-- Removing the return at the end of a line commutes with encoding the line. -/
private theorem dropReturn_utf8Bytes (line : List Char) :
    (if (utf8Bytes line).getLast? = some 13 then (utf8Bytes line).dropLast else utf8Bytes line) =
      utf8Bytes (if line.getLast? = some '\r' then line.dropLast else line) := by
  rcases List.eq_nil_or_concat line with rfl | ⟨front, c, rfl⟩
  · rfl
  · rw [List.concat_eq_append, utf8Bytes_append]
    by_cases hc : c = '\r'
    · subst hc
      have hbytes : utf8Bytes ['\r'] = [13] := rfl
      simp [hbytes]
    · have hne : utf8Bytes [c] ≠ [] := by simp [utf8Bytes_eq_nil]
      have hlast : (utf8Bytes front ++ utf8Bytes [c]).getLast? ≠ some 13 := by
        rw [List.getLast?_append_of_ne_nil _ hne]
        intro hlast
        have hmem := List.mem_of_getLast? hlast
        rw [utf8Bytes_cons, utf8Bytes_nil, List.append_nil] at hmem
        exact carriage_notMem hc hmem
      rw [if_neg hlast, if_neg (by simpa using hc), utf8Bytes_append]

/-- The lines of the bytes are the bytes of the lines. -/
theorem splitLines_utf8Bytes (text : List Char) :
    splitLines 10 13 (utf8Bytes text) = (splitLines '\n' '\r' text).map utf8Bytes := by
  have hended (lines : List (List Char)) : (lines.map utf8Bytes).map (fun line =>
      if line.getLast? = some 13 then line.dropLast else line) =
        (lines.map fun line => if line.getLast? = some '\r' then line.dropLast else line).map
          utf8Bytes := by
    simp only [List.map_map, Function.comp_def, dropReturn_utf8Bytes]
  have hlast (last : Option (List Char)) :
      ((last.map utf8Bytes).toList.filter fun line => !line.isEmpty) =
        (last.toList.filter fun line => !line.isEmpty).map utf8Bytes := by
    cases last with
    | none => rfl
    | some line => cases line <;> simp [utf8Bytes_cons, String.utf8EncodeChar_ne_nil]
  simp only [splitLines, splitOn_utf8Bytes, List.map_append, ← List.map_dropLast, hended,
    List.getLast?_map, hlast]

end Encoded

namespace Source

private theorem fromUTF8?_utf8Bytes (line : List Char) :
    String.fromUTF8? ⟨(utf8Bytes line).toArray⟩ = some (String.ofList line) := by
  have hbytes : ⟨(utf8Bytes line).toArray⟩ = (String.ofList line).toByteArray := by
    rw [String.toByteArray_ofList, List.utf8Encode, ByteArray.ext_iff, List.data_toByteArray]
    rfl
  rw [String.fromUTF8?, hbytes, dif_pos (String.ofList line).isValidUTF8]
  rfl

/-- The lines of a text in UTF-8 are the lines of the text. -/
theorem ofBytes_toUTF8 (text : String) : ofBytes text.toUTF8.data.toList = ofString text := by
  rw [toList_toUTF8, ofBytes, splitLines_utf8Bytes, List.map_map, ofString, ofText]
  apply List.map_congr_left
  intro line _
  simp only [Function.comp_apply, fromUTF8?_utf8Bytes, String.toList_ofList]

end Source

end Clausal.Text
