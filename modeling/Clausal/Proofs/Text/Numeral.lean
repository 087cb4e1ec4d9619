import Clausal.Proofs.Fault
import Clausal.Proofs.Text.Fields
import Clausal.Text.Numeral

namespace Clausal.Text.Numeral

/-- The text consists of decimal digits, of which there is at least one, and they
    stand for `n`. -/
structure Digits (text : List Char) (n : Nat) : Prop where
  nonempty : text ≠ []
  digits : ∀ c ∈ text, c.isDigit = true
  value : Nat.ofDigitChars 10 text 0 = n

/-- The text stands for `n` in decimal, where a plus sign may precede the
    digits. -/
def Unsigned (text : List Char) (n : Nat) : Prop :=
  Digits text n ∨ ∃ digits, text = '+' :: digits ∧ Digits digits n

/-- A numeral is not empty. -/
theorem Unsigned.nonempty {text : List Char} {n : Nat} (h : Unsigned text n) : text ≠ [] := by
  rcases h with h | ⟨digits, rfl, _⟩
  · exact h.nonempty
  · exact List.cons_ne_nil _ _

/-- The text stands for `i` in decimal, where a sign may precede the digits. -/
def Signed (text : List Char) (i : Int) : Prop :=
  (∃ n : Nat, i = n ∧ Unsigned text n) ∨
    ∃ (n : Nat) (digits : List Char), i = -n ∧ text = '-' :: digits ∧ Digits digits n

section Signs

variable {text : List Char} {n : Nat} {i : Int}

private theorem not_digits_cons {c : Char} (h : c.isDigit = false) : ¬ Digits (c :: text) n := by
  intro hdigits
  have hdigit := hdigits.digits c List.mem_cons_self
  rw [h] at hdigit
  cases hdigit

private theorem unsigned_plus : Unsigned ('+' :: text) n ↔ Digits text n := by
  constructor
  · rintro (h | ⟨digits, heq, h⟩)
    · exact absurd h (not_digits_cons (by decide))
    · cases heq
      exact h
  · exact fun h => .inr ⟨text, rfl, h⟩

private theorem unsigned_unsigned (h : ∀ digits, text ≠ '+' :: digits) :
    Unsigned text n ↔ Digits text n := by
  constructor
  · rintro (h' | ⟨digits, heq, _⟩)
    · exact h'
    · exact absurd heq (h digits)
  · exact .inl

private theorem signed_minus : Signed ('-' :: text) i ↔ ∃ n : Nat, i = -n ∧ Digits text n := by
  constructor
  · rintro (⟨n, _, h | ⟨_, heq, _⟩⟩ | ⟨n, digits, hi, heq, h⟩)
    · exact absurd h (not_digits_cons (by decide))
    · cases heq
    · cases heq
      exact ⟨n, hi, h⟩
  · rintro ⟨n, hi, h⟩
    exact .inr ⟨n, text, hi, rfl, h⟩

private theorem signed_unsigned (h : ∀ digits, text ≠ '-' :: digits) :
    Signed text i ↔ ∃ n : Nat, i = n ∧ Unsigned text n := by
  constructor
  · rintro (h' | ⟨_, digits, _, heq, _⟩)
    · exact h'
    · exact absurd heq (h digits)
  · exact .inl

end Signs

section Reading

variable {limit : Nat} {excess : NumeralError} {text : List Char} {n : Nat}

private theorem le_ofDigitChars (digits : List Char) (first : Nat) :
    first ≤ Nat.ofDigitChars 10 digits first := by
  induction digits generalizing first with
  | nil => exact Nat.le_refl first
  | cons c rest ih =>
    rw [Nat.ofDigitChars_cons]
    have hrest := ih (10 * first + (c.toNat - '0'.toNat))
    omega

/-- The digits read so far never stand for more than all of them, so it is the
    whole number that has to keep to the limit. -/
private theorem foldlM_appendDigit (digits : List Char) {first : Nat} (hfirst : first ≤ limit) :
    digits.foldlM (appendDigit limit excess) first = .ok n ↔
      (∀ c ∈ digits, c.isDigit = true) ∧ Nat.ofDigitChars 10 digits first = n ∧ n ≤ limit := by
  induction digits generalizing first with
  | nil =>
    simp only [List.foldlM_nil, pure, Except.pure, Except.ok.injEq, Nat.ofDigitChars_nil]
    constructor
    · rintro rfl
      exact ⟨List.forall_mem_nil _, rfl, hfirst⟩
    · exact fun h => h.2.1
  | cons c rest ih =>
    rw [List.foldlM_cons, Nat.ofDigitChars_cons, List.forall_mem_cons, Nat.mul_comm 10 first]
    have hrest := le_ofDigitChars rest (first * 10 + (c.toNat - '0'.toNat))
    by_cases hdigit : c.isDigit = true
    · by_cases hnext : first * 10 + (c.toNat - '0'.toNat) ≤ limit
      · simp only [appendDigit, hdigit, hnext, if_true, bind, Except.bind, true_and]
        exact ih hnext
      · simp only [appendDigit, hdigit, hnext, if_true, if_false, bind, Except.bind, reduceCtorEq,
          false_iff]
        rintro ⟨_, rfl, hle⟩
        omega
    · simp [appendDigit, hdigit, bind, Except.bind]

/-- Digits are read up to the limit. -/
theorem magnitude_eq_ok_iff (hnonempty : text ≠ []) :
    magnitude limit excess text = .ok n ↔ Digits text n ∧ n ≤ limit := by
  rw [magnitude, foldlM_appendDigit text (Nat.zero_le limit), ← and_assoc]
  exact and_congr_left fun _ => ⟨fun h => ⟨hnonempty, h.1, h.2⟩, fun h => ⟨h.digits, h.value⟩⟩

/-- Unsigned numerals are read up to the limit. -/
theorem readNat_eq_ok_iff : readNat limit text = .ok n ↔ Unsigned text n ∧ n ≤ limit := by
  unfold readNat
  split
  · simp only [reduceCtorEq, false_iff, unsigned_unsigned (fun _ => List.cons_ne_nil _ _ ∘ Eq.symm)]
    exact fun h => h.1.nonempty rfl
  · simp only [reduceCtorEq, false_iff, unsigned_plus]
    exact fun h => h.1.nonempty rfl
  · rename_i hnonempty
    rw [unsigned_plus, magnitude_eq_ok_iff fun h => hnonempty (h ▸ rfl)]
  · rename_i hnonempty _ hsign
    rw [unsigned_unsigned hsign, magnitude_eq_ok_iff hnonempty]

private theorem readInt_of_ne_minus (h : ∀ digits, text ≠ '-' :: digits) :
    readInt limit text = (readNat limit text).map Int.ofNat := by
  unfold readInt
  split
  · rfl
  · rfl
  · exact absurd rfl (h [])
  · rename_i hnonempty
    rw [readNat]
    · cases magnitude limit .tooLarge _ <;> rfl
    · exact hnonempty
  · exact absurd rfl (h _)
  · rename_i hnonempty hlone _ hplus _
    rw [readNat]
    · cases magnitude limit .tooLarge text <;> rfl
    · exact hnonempty
    · exact hlone
    · exact hplus

private theorem readInt_minus (hnonempty : text ≠ []) : readInt limit ('-' :: text) =
    (magnitude (limit + 1) .tooSmall text).map fun n : Nat => -(n : Int) := by
  rw [readInt]
  · cases magnitude (limit + 1) .tooSmall text <;> rfl
  · exact hnonempty

/-- Signed numerals are read within the limits of both signs. -/
theorem readInt_eq_ok_iff {i : Int} : readInt limit text = .ok i ↔
    Signed text i ∧ -(limit + 1 : Nat) ≤ i ∧ i ≤ limit := by
  by_cases hminus : ∃ digits, text = '-' :: digits
  · obtain ⟨digits, rfl⟩ := hminus
    rw [signed_minus]
    by_cases hnonempty : digits = []
    · subst hnonempty
      constructor
      · intro h
        cases h
      · rintro ⟨⟨n, _, hdigits⟩, _⟩
        exact absurd rfl hdigits.nonempty
    · simp only [readInt_minus hnonempty, map_eq_ok_iff, magnitude_eq_ok_iff hnonempty]
      constructor
      · rintro ⟨n, ⟨hdigits, hle⟩, rfl⟩
        exact ⟨⟨n, rfl, hdigits⟩, by omega, by omega⟩
      · rintro ⟨⟨n, rfl, hdigits⟩, hge, _⟩
        exact ⟨n, ⟨hdigits, by omega⟩, rfl⟩
  · rw [not_exists] at hminus
    simp only [readInt_of_ne_minus hminus, map_eq_ok_iff, readNat_eq_ok_iff,
      signed_unsigned hminus]
    constructor
    · rintro ⟨n, ⟨hunsigned, hle⟩, rfl⟩
      exact ⟨⟨n, rfl, hunsigned⟩, by simp only [Int.ofNat_eq_natCast]; omega,
        by simp only [Int.ofNat_eq_natCast]; omega⟩
    · rintro ⟨⟨n, rfl, hunsigned⟩, _, hle⟩
      exact ⟨n, ⟨hunsigned, by omega⟩, rfl⟩

/-- An unsigned numeral is read if its value is a word. -/
theorem readWord_eq_ok_iff : readWord text = .ok n ↔ Unsigned text n ∧ n < Word.bound := by
  rw [readWord, readNat_eq_ok_iff, Word.bound, Nat.lt_succ_iff]

/-- A signed numeral is read if its value has 32 bits. -/
theorem readInt32_eq_ok_iff {i : Int} : readInt32 text = .ok i ↔
    Signed text i ∧ -2147483648 ≤ i ∧ i ≤ 2147483647 := by
  rw [readInt32, readInt_eq_ok_iff]
  exact and_congr_right fun _ => by omega

end Reading

section Printing

private theorem digits_toDigits (n : Nat) : Digits (Nat.toDigits 10 n) n :=
  ⟨Nat.toDigits_ne_nil, fun _ hc => Nat.isDigit_of_mem_toDigits (by decide) (by decide) hc,
    Nat.ofDigitChars_ten_toDigits⟩

/-- A natural number is written by its digits. -/
theorem digits_toString (n : Nat) : Digits (toString n).toList n := by
  rw [Nat.toString_eq_repr, Nat.toList_repr]
  exact digits_toDigits n

/-- An integer is written as a signed numeral. -/
theorem signed_toString (i : Int) : Signed (toString i).toList i := by
  rw [Int.toString_eq_repr, Int.repr_eq_if]
  split
  · rename_i hnonneg
    rw [Nat.toList_repr]
    exact .inl ⟨i.toNat, by omega, .inl (digits_toDigits _)⟩
  · rename_i hnegative
    rw [String.toList_append, Nat.toList_repr]
    exact .inr ⟨(-i).toNat, _, by omega, rfl, digits_toDigits _⟩

/-- A number is printed with digits and, if it is negative, a minus sign. -/
theorem isDigit_or_minus_of_mem_toString {i : Int} {c : Char} (hc : c ∈ (toString i).toList) :
    c.isDigit = true ∨ c = '-' := by
  rw [Int.toString_eq_repr, Int.repr_eq_if] at hc
  split at hc
  · rw [Nat.toList_repr] at hc
    exact .inl ((digits_toDigits _).digits c hc)
  · rw [String.toList_append, Nat.toList_repr] at hc
    rcases List.mem_cons.mp hc with rfl | hc
    · exact .inr rfl
    · exact .inl ((digits_toDigits _).digits c hc)

/-- A written natural number has no blanks. -/
theorem isToken_toString (n : Nat) : IsToken (toString n).toList :=
  ⟨(digits_toString n).nonempty, fun c hc => isBlank_of_isDigit ((digits_toString n).digits c hc)⟩

/-- A written integer has no blanks. -/
theorem isToken_toString_int (i : Int) : IsToken (toString i).toList := by
  constructor
  · intro hnil
    rcases hnil ▸ signed_toString i with ⟨n, _, hdigits | ⟨_, hcons, _⟩⟩ | ⟨_, _, _, hcons, _⟩
    · exact hdigits.nonempty rfl
    · cases hcons
    · cases hcons
  · intro c hc
    rcases isDigit_or_minus_of_mem_toString hc with hdigit | rfl
    · exact isBlank_of_isDigit hdigit
    · decide

/-- A word that is written can be read. -/
theorem readWord_toString {n : Nat} (h : n < Word.bound) :
    readWord (toString n).toList = .ok n :=
  readWord_eq_ok_iff.mpr ⟨.inl (digits_toString n), h⟩

end Printing

end Clausal.Text.Numeral
