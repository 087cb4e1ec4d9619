namespace Clausal

/-- A fault stops an operation whose arguments lie outside the domain on which
    it is defined. It is kept apart from the errors an operation reports about
    its input, because no caller recovers from it. -/
inductive Fault where
  /-- A table, clause, board or trail was accessed outside its bounds. -/
  | outOfRange
  /-- An unsigned 64-bit sum, difference or product left its range. -/
  | overflow
  /-- A quotient or remainder by zero was requested. -/
  | divisionByZero
  /-- A table was requested that is larger than memory can address. -/
  | capacity
deriving DecidableEq, Repr

/-- The two ways in which an operation ends without a result: a fault, or an
    error of the domain with its cause. -/
inductive Failure (ε : Type) where
  | fault (reason : Fault)
  | error (cause : ε)
deriving DecidableEq, Repr

namespace Failure

/-- Embeds the causes of one operation into those of another. -/
def map {ε δ : Type} (f : ε → δ) : Failure ε → Failure δ
  | .fault reason => .fault reason
  | .error cause => .error (f cause)

instance {ε : Type} : MonadLift (Except Fault) (Except (Failure ε)) where
  monadLift
    | .ok value => .ok value
    | .error reason => .error (.fault reason)

instance {ε : Type} : MonadLift (Except ε) (Except (Failure ε)) where
  monadLift
    | .ok value => .ok value
    | .error cause => .error (.error cause)

end Failure

namespace Word

/-- Machine words are unsigned and 64 bits wide: every value is below this
    bound. -/
def bound : Nat := 18446744073709551616

/-- The sum of two words, unless it leaves the range of words. -/
def add (a b : Nat) : Except Fault Nat :=
  if a + b < bound then .ok (a + b) else .error .overflow

/-- The difference of two words, unless it is negative. -/
def sub (a b : Nat) : Except Fault Nat :=
  if b ≤ a then .ok (a - b) else .error .overflow

/-- The product of two words, unless it leaves the range of words. -/
def mul (a b : Nat) : Except Fault Nat :=
  if a * b < bound then .ok (a * b) else .error .overflow

/-- The quotient of two words. -/
def div (a b : Nat) : Except Fault Nat :=
  if b = 0 then .error .divisionByZero else .ok (a / b)

/-- The remainder of two words. -/
def mod (a b : Nat) : Except Fault Nat :=
  if b = 0 then .error .divisionByZero else .ok (a % b)

/-- The largest number of bytes one table may occupy. -/
def maxTableBytes : Nat := 9223372036854775807

/-- Admits a table of `entries` entries of `width` bytes each only if its size
    can be addressed. -/
def checkTable (entries width : Nat) : Except Fault Unit :=
  if entries * width ≤ maxTableBytes then .ok () else .error .capacity

end Word

end Clausal
