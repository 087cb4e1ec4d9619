import Clausal.Command.Job
import Clausal.Dimacs
import Clausal.Solution.Reader
import Clausal.Solver
import Clausal.Sudoku.Error

namespace Clausal.Command

open Text

/-- The failures of a command. -/
inductive Error where
  /-- A formula could not be read. -/
  | dimacs (cause : Dimacs.Error)
  /-- A solution could not be read. -/
  | solution (cause : Solution.Error)
  /-- A formula breaks the data model. -/
  | structural (cause : StructuralError)
  /-- A puzzle could not be read, encoded or decoded. -/
  | sudoku (cause : Sudoku.Error)
  /-- A file could not be opened or written. -/
  | file (cause : FileError)
  /-- A directory was expected. -/
  | notADirectory (path : String)
  /-- The input holds no puzzle. -/
  | noPuzzle
  /-- A model does not satisfy its formula. -/
  | verification (label : String)
deriving DecidableEq, Repr

namespace Error

/-- The sentence shown for an error. -/
def message : Error → String
  | .dimacs cause => cause.message Dimacs.Defect.message
  | .solution cause => cause.message Solution.Defect.message
  | .structural cause => cause.message
  | .sudoku cause => cause.message
  | .file cause => cause.message
  | .notADirectory path => s!"{path} is not a directory"
  | .noPuzzle => "no puzzle found in the input"
  | .verification label => s!"model for {label} failed verification"

end Error

/-- What a command needs from its surroundings. -/
structure Host (m : Type → Type) where
  /-- Opens a file, or standard input where no path is given. -/
  read : Option String → m (Except FileError Source)
  /-- Whether a path names a directory. -/
  isDirectory : String → m Bool
  /-- The files below a directory. In every directory the entries come in the
      order of their names, and a directory's own files in its place. -/
  filesBelow : String → m (List String)
  /-- Writes a file. -/
  write : String → String → m (Except FileError Unit)
  /-- Writes to standard output. -/
  print : String → m Unit
  /-- Writes to standard error. -/
  report : String → m Unit
  /-- Records an event. -/
  emit : Event → m Unit
  /-- The time in nanoseconds. -/
  now : m Nat
  /-- The bytes in use and the bytes resident, if they are known. -/
  memory : m (Option (Nat × Nat))
  /-- The severity from which on events are recorded, if any are. -/
  threshold : m (Option Level)
  /-- The script that makes a shell complete the arguments of the program. -/
  completions : Shell → String

end Clausal.Command
