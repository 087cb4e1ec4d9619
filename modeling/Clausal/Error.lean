import Clausal.Fault

namespace Clausal

/-- Violations of the structural invariants of formulas and of the watch
    index. -/
inductive StructuralError where
  /-- A literal or variable of 0. -/
  | zeroLiteral
  /-- A literal whose negation does not fit in a signed 32-bit number. -/
  | literalOverflow
  /-- More variables are declared than literals can address. -/
  | tooManyVariables (count limit : Nat)
  /-- A literal names a variable that is not declared. -/
  | variableOutOfRange (variableId limit : Nat)
  /-- A clause is watched twice, never, by a foreign literal or by a false
      one. -/
  | watchInvariant (clause : Nat)
  /-- A clause has no literals. -/
  | emptyClause (clause : Nat)
deriving DecidableEq, Repr

namespace StructuralError

/-- The sentence shown for a structural error. -/
def message : StructuralError → String
  | .zeroLiteral => "0 is not a valid literal"
  | .literalOverflow => "literal -2147483648 has no negation in range"
  | .tooManyVariables count limit => s!"{count} variables exceed the limit of {limit}"
  | .variableOutOfRange variableId limit =>
    s!"variable {variableId} is outside the declared range 1..={limit}"
  | .watchInvariant clause => s!"clause {clause} is watched by a falsified literal"
  | .emptyClause clause => s!"clause {clause} is empty"

end StructuralError

/-- Failures of reading or writing a file or stream. -/
inductive FileError where
  /-- A line is not well-formed UTF-8. -/
  | invalidUtf8
  /-- The path names nothing. -/
  | notFound
  /-- The path names a directory where a file is needed. -/
  | isDirectory
  /-- The path goes through something that is not a directory. -/
  | notDirectory
  /-- Any other report of the operating system, in its own words. -/
  | other (text : String)
deriving DecidableEq, Repr

namespace FileError

/-- The sentence shown for a file error. -/
def message : FileError → String
  | .invalidUtf8 => "stream did not contain valid UTF-8"
  | .notFound => "No such file or directory (os error 2)"
  | .isDirectory => "Is a directory (os error 21)"
  | .notDirectory => "Not a directory (os error 20)"
  | .other text => text

end FileError

/-- Failures of reading a formula or a solution. The type `δ` lists what can be
    wrong with the text of one format. -/
inductive ReadError (δ : Type) where
  /-- The text breaks the format on a line counted from 1, or as a whole when
      the line is 0. -/
  | malformed (line : Nat) (defect : δ)
  /-- The text holds a literal that breaks the data model. -/
  | structural (cause : StructuralError)
  /-- The text could not be read. -/
  | file (cause : FileError)
deriving DecidableEq, Repr

namespace ReadError

/-- The sentence shown for a read error, given the wording of the defects of
    its format. -/
def message {δ : Type} (describe : δ → String) : ReadError δ → String
  | .malformed line defect => s!"parse error on line {line}: " ++ describe defect
  | .structural cause => cause.message
  | .file cause => "I/O error: " ++ cause.message

end ReadError

end Clausal
