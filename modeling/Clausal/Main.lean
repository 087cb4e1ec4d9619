import Clausal.Command.Run
import Clausal.Command.Usage

namespace Clausal.Command

open Text

/-- The failure that a report of the operating system stands for. -/
def fileErrorOf : IO.Error → FileError
  | .noFileOrDirectory .. => .notFound
  | .inappropriateType _ code details =>
    if code = 21 then .isDirectory else if code = 20 then .notDirectory else .other details
  | cause => .other (toString cause)

/-- The lines of all that is left of a stream. -/
partial def readStream (stream : IO.FS.Stream) (done : ByteArray) : IO Source := do
  let chunk ← stream.read 65536
  if chunk.isEmpty then return Source.ofBytes done.toList
  else readStream stream (done ++ chunk)

/-- Opens a file, or standard input where no path is given. A directory can be
    opened, and fails when it is read. -/
def openSource : Option String → IO (Except FileError Source)
  | none => return .ok (← readStream (← IO.getStdin) .empty)
  | some path => do
    try return .ok (Source.ofBytes (← IO.FS.readBinFile path).toList)
    catch cause =>
      match fileErrorOf cause with
      | .isDirectory => return .ok (Source.failing .isDirectory)
      | failure => return .error failure

/-- Writes a file. -/
def writeText (path text : String) : IO (Except FileError Unit) := do
  try
    IO.FS.writeFile path text
    return .ok ()
  catch cause => return .error (fileErrorOf cause)

/-- The files below a directory. In every directory the entries come in the order
    of their names. What cannot be looked at is left out. -/
partial def filesUnder (path : String) : IO (List String) := do
  let place := (← IO.currentDir) / path
  let entries ← try place.readDir catch _ => pure #[]
  let names := (entries.toList.map (·.fileName)).mergeSort fun a b => (compare a b).isLE
  let root := if path.endsWith "/" then path else path ++ "/"
  let mut files := []
  for name in names do
    let kind ← try pure (some (← (place / name).symlinkMetadata).type) catch _ => pure none
    if kind == some .dir then files := files ++ (← filesUnder (root ++ name))
    else if kind == some .file then files := files ++ [root ++ name]
  return files

/-- The resident bytes that are not shared and all resident bytes, which the
    operating system counts in pages of 4096 bytes. -/
def memoryInUse : IO (Option (Nat × Nat)) := do
  try
    let text ← IO.FS.readFile "/proc/self/statm"
    match (text.splitOn " ").map (·.toNat?) with
    | _ :: some resident :: some shared :: _ =>
      return some ((resident - shared) * 4096, resident * 4096)
    | _ => return none
  catch _ => return none

/-- Writes an event to standard error if it is at least as severe as the
    threshold. -/
def showEvent (threshold : Level) (e : Event) : IO Unit := do
  if e.level.rank ≤ threshold.rank then IO.eprintln e.render

/-- The operating system as a host. -/
def system (threshold : Level) : Host IO where
  read := openSource
  isDirectory path := do ((← IO.currentDir) / path).isDir
  filesBelow := filesUnder
  write := writeText
  print text := do
    let out ← IO.getStdout
    out.putStr text
    out.flush
  report := IO.eprint
  emit := showEvent threshold
  now := IO.monoNanosNow
  memory := memoryInUse
  threshold := return some threshold
  completions := completionLine

/-- Answers arguments that do not start a command. -/
def explain (cause : UsageError) : IO UInt32 := do
  if cause.isRequest then
    IO.println cause.message
    if cause = .helpRequested then IO.print usage
    return 0
  else
    IO.eprintln s!"error: {cause.message}"
    IO.eprint usage
    return 2

/-- Does a job and answers how it has ended. -/
def perform (invocation : Invocation) : IO UInt32 := do
  let threshold := if invocation.debug then Level.debug else Level.warn
  match ← (run (system threshold) invocation.job).run with
  | .ok () => return 0
  | .error (.error cause) =>
    IO.eprintln s!"error: {cause.message}"
    return 1
  | .error (.fault _) =>
    IO.eprintln "fault: an operation has left the domain on which it is defined"
    return 101

end Clausal.Command

/-- Reads the arguments and runs the command they start. -/
def main (args : List String) : IO UInt32 :=
  match Clausal.Command.parseArguments args with
  | .ok invocation => Clausal.Command.perform invocation
  | .error cause => Clausal.Command.explain cause
