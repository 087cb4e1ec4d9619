import Clausal.Command.Host
import Clausal.Command.Report
import Clausal.Solver.Alarm
import Clausal.Sudoku.Notation
import Clausal.Sudoku.Solve

namespace Clausal.Command

open Text Sudoku

variable {m : Type → Type} [Monad m]

/-- A command in progress on a host. -/
abbrev Action (m : Type → Type) := ExceptT (Failure Error) m

/-- Ends a command with an error unless there is a value, and names the place of
    the error among those of commands. -/
def demand {ε α : Type} (embed : ε → Error) : Except ε α → Action m α
  | .ok value => pure value
  | .error cause => throw (.error (embed cause))

/-- Ends a command with a fault or an error unless there is a value. -/
def demandSound {ε α : Type} (embed : ε → Error) : Except (Failure ε) α → Action m α
  | .ok value => pure value
  | .error failure => throw (failure.map embed)

/-- Opens a file or standard input. -/
def openInput (h : Host m) (path : Option String) : Action m Source := do
  demand .file (← h.read path)

/-- Passes the events of a log on to the host. -/
def passOn (h : Host m) (log : Log) : Action m Unit := do
  for e in log.events do
    h.emit e

/-- Does something that reports events and passes them on. -/
def withEvents {α : Type} (h : Host m) (work : Log → α × Log) : Action m α := do
  let (value, log) := work (Log.empty (some .trace))
  passOn h log
  return value

/-- Reads a formula. -/
def readFormula (h : Host m) (source : Source) : Action m Formula := do
  demand .dimacs (← withEvents h (Dimacs.parseLogged source))

/-- Encodes a puzzle. -/
def encodePuzzle (h : Host m) (p : Puzzle) : Action m Formula := do
  demandSound .sudoku (← withEvents h p.toFormulaLogged)

/-- The first puzzle of a file or of standard input. -/
def firstPuzzle (h : Host m) (path : Option String) : Action m Puzzle := do
  let source ← openInput h path
  match ← demandSound .sudoku (Puzzle.readAll source) with
  | p :: _ => return p
  | [] => throw (.error .noPuzzle)

/-- Checks the model of a satisfiable solution against every clause. Solutions
    without a model pass. -/
def verifySolution (f : Formula) (s : Solution) (label : String) :
    Except (Failure Error) Event := do
  if s.verdict = .satisfiable then
    if !(← f.verify s) then throw (.error (.verification label))
  return .modelVerified label s.verdict

/-- The alarm for a number of seconds from now, or for never if it is 0. -/
def setAlarm (h : Host m) (timeout : Nat) : Action m (Solver.Alarm m) := do
  match ← (Solver.Alarm.withTimeout h.now (timeout * second) .silent : m _) with
  | .ok alarm => return alarm
  | .error reason => throw (.fault reason)

/-- Solves a formula unless the alarm rings, and passes on the events that the host
    records. -/
def solveUntil (h : Host m) (alarm : Solver.Alarm m) (options : Solver.Options) (f : Formula) :
    Action m (Except (Failure StructuralError) Solution × Statistics) := do
  let threshold ← h.threshold
  let outcome ←
    (Solver.solveWith (fun _ => alarm.rings h.now) options f (.empty threshold) : m _)
  passOn h outcome.log
  return (outcome.result, outcome.stats)

/-- Solves a formula and reports on that as the options ask for. -/
def solveAndReport (h : Host m) (f : Formula) (options : SolveOptions) (label : String)
    (parseTime : Nat) : Action m Solution := do
  h.emit (.solvingInput label)
  let started ← h.now
  let alarm ← setAlarm h options.timeout
  let (result, stats) ← solveUntil h alarm { preprocess := !options.noPreprocess } f
  let solution ← demandSound .structural result
  let solveTime := (← h.now) - started
  h.report (elapsedLine solveTime)
  if options.verify then
    h.emit (← demandSound id (verifySolution f solution label))
  if options.stats then
    h.report (statistics ⟨parseTime, solveTime, ← h.memory⟩ f stats solution.verdict)
  if options.printSolution then
    match solution.model? with
    | some model => h.report (modelLine model)
    | none => pure ()
  return solution

/-- Writes the canonical formula of the first puzzle. -/
def toSat (h : Host m) (path : Option String) : Action m Unit := do
  let f ← encodePuzzle h (← firstPuzzle h path)
  h.print f.simplify.render

/-- Solves a formula and writes its solution. -/
def solveFormula (h : Host m) (path : Option String) (options : SolveOptions) :
    Action m Unit := do
  let started ← h.now
  let f ← readFormula h (← openInput h path)
  let parseTime := (← h.now) - started
  let solution ← solveAndReport h f options (path.getD "<stdin>") parseTime
  h.print solution.render

/-- Writes a puzzle and the board that a solution of it stands for. -/
def toSudoku (h : Host m) (puzzle : String) (solution : Option String) : Action m Unit := do
  let p ← firstPuzzle h (some puzzle)
  let s ← demandSound .solution (Solution.parse (← openInput h solution))
  let solved ← demandSound .sudoku (p.decode s)
  h.print ("Puzzle:\n" ++ p.render ++ "\n")
  h.print ("Solution:\n" ++ solved.render ++ "\n")

/-- Writes what solving a puzzle has led to. -/
def printSolved (h : Host m) (p : Puzzle) (options : SolveOptions) (label : String)
    (s : Solution) : Action m Unit := do
  match s.verdict with
  | .satisfiable =>
    let solved ← demandSound .sudoku (p.decode s)
    if options.verify then
      match solved.isSolved with
      | .error reason => throw (.fault reason)
      | .ok false => throw (.error (.verification label))
      | .ok true => pure ()
    h.print ("Solution:\n" ++ solved.render ++ "\n")
  | .unsatisfiable => h.print "No solution found\n\n"
  | .unknown => h.print "Gave up before finding a solution\n\n"

/-- Solves the puzzle with a number and writes both boards. -/
def solvePuzzle (h : Host m) (path : String) (writeFormulas : Bool) (options : SolveOptions)
    (readTime : Nat) (p : Puzzle) (number : Nat) : Action m Unit := do
  h.print (s!"Puzzle {number}:\n" ++ p.render ++ "\n")
  let started ← h.now
  let f ← encodePuzzle h p
  let parseTime := readTime + ((← h.now) - started)
  if writeFormulas then
    let target := s!"{path}.{number}.cnf"
    demand .file (← h.write target f.render)
    h.print s!"DIMACS written to: {target}\n"
  let label := s!"{path} #{number}"
  let s ← solveAndReport h f options label parseTime
  printSolved h p options label s

/-- Solves the puzzles of a file. -/
def solvePuzzles (h : Host m) (path : String) (writeFormulas : Bool) (options : SolveOptions) :
    Action m Unit := do
  let started ← h.now
  let puzzles ← demandSound .sudoku (Puzzle.readAll (← openInput h (some path)))
  let readTime := (← h.now) - started
  if puzzles.isEmpty then throw (.error .noPuzzle)
  for (p, number) in puzzles.zipIdx do
    solvePuzzle h path writeFormulas options readTime p number

/-- What follows the last dot in the name of a file, unless nothing stands in
    front of that dot. -/
def extension? (path : String) : Option String :=
  let name := (path.toList.reverse.takeWhile (· != '/'))
  match name.dropWhile (· != '.') with
  | '.' :: _ :: _ => some (String.ofList (name.takeWhile (· != '.')).reverse)
  | _ => none

/-- Solves one file of a directory, if its name says that it holds a formula or
    puzzles. -/
def solveFile (h : Host m) (path : String) (options : SolveOptions) : Action m Unit := do
  match extension? path with
  | some "sudoku" => solvePuzzles h path false options
  | some "cnf" =>
    let started ← h.now
    let source ← demand (fun cause => .dimacs (.file cause)) (← h.read (some path))
    let f ← readFormula h source
    let parseTime := (← h.now) - started
    let s ← solveAndReport h f options path parseTime
    h.print s!"{path}: {s.verdict.name}\n"
  | _ => h.emit (.fileSkipped path)

/-- Solves the formulas and puzzles below a directory. -/
def solveDirectory (h : Host m) (path : String) (options : SolveOptions) : Action m Unit := do
  if !(← h.isDirectory path) then throw (.error (.notADirectory path))
  for file in ← h.filesBelow path do
    solveFile h file options

/-- Does a job. -/
def run (h : Host m) : Job → Action m Unit
  | .toSat path => toSat h path
  | .solve path options => solveFormula h path options
  | .toSudoku puzzle solution => toSudoku h puzzle solution
  | .sudoku path writeFormulas options => solvePuzzles h path writeFormulas options
  | .dir path options => solveDirectory h path options
  | .completions shell => h.print (h.completions shell)

end Clausal.Command
