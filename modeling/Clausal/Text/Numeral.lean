namespace Clausal.Text

/-- The ways in which a text fails to be a number in range. -/
inductive NumeralError where
  | empty
  | invalidDigit
  | tooLarge
  | tooSmall
deriving DecidableEq, Repr

namespace NumeralError

/-- The phrase shown for a numeral error. -/
def message : NumeralError → String
  | .empty => "cannot parse integer from empty string"
  | .invalidDigit => "invalid digit found in string"
  | .tooLarge => "number too large to fit in target type"
  | .tooSmall => "number too small to fit in target type"

end NumeralError

namespace Numeral

/-- Appends a decimal digit to a magnitude that must not exceed `limit`. -/
def appendDigit (limit : Nat) (excess : NumeralError) (magnitude : Nat) (c : Char) :
    Except NumeralError Nat :=
  if c.isDigit then
    let next := magnitude * 10 + (c.toNat - '0'.toNat)
    if next ≤ limit then .ok next else .error excess
  else .error .invalidDigit

/-- The magnitude that a sequence of decimal digits denotes. The first digit
    that is none or that leads beyond `limit` is reported. -/
def magnitude (limit : Nat) (excess : NumeralError) (digits : List Char) :
    Except NumeralError Nat :=
  digits.foldlM (appendDigit limit excess) 0

/-- Reads an unsigned number of at most `limit`. One plus sign may stand in
    front of the digits. -/
def readNat (limit : Nat) : List Char → Except NumeralError Nat
  | [] => .error .empty
  | ['+'] => .error .invalidDigit
  | '+' :: digits => magnitude limit .tooLarge digits
  | digits => magnitude limit .tooLarge digits

/-- Reads a signed number between `-(limit + 1)` and `limit`. One sign may stand
    in front of the digits. -/
def readInt (limit : Nat) : List Char → Except NumeralError Int
  | [] => .error .empty
  | ['+'] => .error .invalidDigit
  | ['-'] => .error .invalidDigit
  | '+' :: digits => return (← magnitude limit .tooLarge digits)
  | '-' :: digits => return -(← magnitude (limit + 1) .tooSmall digits)
  | digits => return (← magnitude limit .tooLarge digits)

/-- Reads an unsigned 64-bit number. -/
def readWord (text : List Char) : Except NumeralError Nat :=
  readNat 18446744073709551615 text

/-- Reads a signed 32-bit number. -/
def readInt32 (text : List Char) : Except NumeralError Int :=
  readInt 2147483647 text

end Numeral

end Clausal.Text
