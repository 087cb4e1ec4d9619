import Clausal.Dimacs
import Clausal.Solution.Reader
import Clausal.Solver
import Clausal.Solver.Alarm
import Clausal.Sudoku.Notation
import Clausal.Sudoku.Solve
import Clausal.Command.MemoryHost
import Clausal.Main
import Clausal.Proofs.Fault
import Clausal.Proofs.Text.Numeral
import Clausal.Proofs.Text.Fields
import Clausal.Proofs.Text.Lines
import Clausal.Proofs.Assignment
import Clausal.Proofs.Valuation
import Clausal.Proofs.Model
import Clausal.Proofs.Formula
import Clausal.Proofs.Formula.Canonical
import Clausal.Proofs.Formula.Verification
import Clausal.Proofs.Dimacs.Grammar
import Clausal.Proofs.Dimacs.Parsing
import Clausal.Proofs.Dimacs.RoundTrip
import Clausal.Proofs.NormalForm
import Clausal.Proofs.NormalForm.Exactness
import Clausal.Proofs.Reduction.Passes
import Clausal.Proofs.Reduction.PureLiterals
import Clausal.Proofs.Reduction.Chain
import Clausal.Proofs.Reduction.Rearrangement
import Clausal.Proofs.Reduction.Agreement
import Clausal.Proofs.Reduction.Fixpoint
import Clausal.Proofs.Reduction.Canonical
import Clausal.Proofs.Reduction.Termination
import Clausal.Proofs.Reduction.Irreducible
import Clausal.Proofs.Watches.Entries
import Clausal.Proofs.Watches.Valid
import Clausal.Proofs.Watches.Audit
import Clausal.Proofs.Propagation.Moves
import Clausal.Proofs.Propagation.Progress
import Clausal.Proofs.Propagation.Settle
import Clausal.Proofs.Propagation.Decision
import Clausal.Proofs.Propagation.Conservation
import Clausal.Proofs.BranchOrder
import Clausal.Proofs.BranchOrder.Ordering
import Clausal.Proofs.Search.Path
import Clausal.Proofs.Search.Rewind
import Clausal.Proofs.Search.Invariant
import Clausal.Proofs.Search.Step
import Clausal.Proofs.Search.Counters
import Clausal.Proofs.Search.Run
import Clausal.Proofs.Solver.Launch
import Clausal.Proofs.Solver.Solve
import Clausal.Proofs.Solver.Correctness
import Clausal.Proofs.Solver.Alarm
import Clausal.Proofs.Solver.Rearrangement
import Clausal.Proofs.Solver.Canonical
import Clausal.Proofs.Solver.Consistency
import Clausal.Proofs.Solver.Counters
import Clausal.Proofs.Solver.Indexing
import Clausal.Proofs.Solution.Grammar
import Clausal.Proofs.Solution.Reading
import Clausal.Proofs.Solution.RoundTrip
import Clausal.Proofs.Solution.ValueLines
import Clausal.Proofs.Sudoku.Board
import Clausal.Proofs.Sudoku.Blank
import Clausal.Proofs.Sudoku.Units
import Clausal.Proofs.Sudoku.Grid
import Clausal.Proofs.Sudoku.Cell
import Clausal.Proofs.Sudoku.Numbering
import Clausal.Proofs.Sudoku.Encoding
import Clausal.Proofs.Sudoku.Clash
import Clausal.Proofs.Sudoku.Exactness
import Clausal.Proofs.Sudoku.Merging
import Clausal.Proofs.Sudoku.Decoding
import Clausal.Proofs.Sudoku.Solve
import Clausal.Proofs.Sudoku.Pipeline
import Clausal.Proofs.Sudoku.Notation
import Clausal.Proofs.Sudoku.Reading
import Clausal.Proofs.Command.Observation
import Clausal.Proofs.Command.Reporting
