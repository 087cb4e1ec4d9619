import Clausal.Command.Arguments
import Clausal.Command.FileTree
import Clausal.Command.Run

namespace Clausal.Command

open Text

/-- A host in memory: its files, its standard input, what has been written to
    standard output and standard error, and its log. Its clock has gone for a day
    and stands still. -/
structure MemoryHost where
  files : FileTree
  input : Source
  output : String
  reports : String
  log : Log

namespace MemoryHost

/-- A host to which nothing has been written. -/
def start (files : FileTree) (input : Source) (log : Log) : MemoryHost :=
  ⟨files, input, "", "", log⟩

/-- Opens a file or standard input. -/
def read (s : MemoryHost) : Option String → Except FileError Source
  | none => .ok s.input
  | some path => s.files.read path

/-- Writes a file. -/
def write (path text : String) : StateM MemoryHost (Except FileError Unit) := fun s =>
  match s.files.write path text with
  | .ok files => (.ok (), { s with files := files })
  | .error cause => (.error cause, s)

/-- What a command needs, provided in memory. -/
def host : Host (StateM MemoryHost) where
  read path := return (← get).read path
  isDirectory path := return match (← get).files.find path with
    | .ok (.directory _) => true
    | _ => false
  filesBelow path := return (← get).files.filesBelow path
  write := write
  print text := modify fun s => { s with output := s.output ++ text }
  report text := modify fun s => { s with reports := s.reports ++ text }
  emit e := modify fun s => { s with log := s.log.emit e }
  now := return 86400 * second
  memory := return some (0, 0)
  threshold := return (← get).log.threshold
  completions _ := ""

/-- Does a job on a host in memory. -/
def run (s : MemoryHost) (job : Job) : Except (Failure Error) Unit × MemoryHost :=
  (Command.run host job).run.run s

/-- Reads arguments and does the job that they name. -/
def invoke (s : MemoryHost) (arguments : List String) :
    Except UsageError (Except (Failure Error) Unit × MemoryHost) := do
  let invocation ← parseArguments arguments
  return s.run invocation.job

end MemoryHost

end Clausal.Command
