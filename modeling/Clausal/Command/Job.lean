namespace Clausal.Command

/-- Options shared by the commands that solve. -/
structure SolveOptions where
  /-- Check a model against every clause. -/
  verify : Bool := false
  /-- Report statistics. -/
  stats : Bool := false
  /-- Report the model. -/
  printSolution : Bool := false
  /-- Seconds after which to give up, 0 for never. -/
  timeout : Nat := 0
  /-- Search the formula as it is. -/
  noPreprocess : Bool := false
deriving DecidableEq, Repr

/-- The shells for which completions exist. -/
inductive Shell where
  | bash
  | elvish
  | fish
  | powershell
  | zsh
deriving DecidableEq, Repr

/-- What a command does. A missing path stands for standard input. -/
inductive Job where
  /-- Encode a puzzle as a formula. -/
  | toSat (path : Option String)
  /-- Solve a formula. -/
  | solve (path : Option String) (options : SolveOptions)
  /-- Decode a solution of a puzzle. -/
  | toSudoku (puzzle : String) (solution : Option String)
  /-- Solve the puzzles of a file. -/
  | sudoku (path : String) (writeFormulas : Bool) (options : SolveOptions)
  /-- Solve the formulas and puzzles below a directory. -/
  | dir (path : String) (options : SolveOptions)
  /-- Write a completion script. -/
  | completions (shell : Shell)
deriving DecidableEq, Repr

end Clausal.Command
