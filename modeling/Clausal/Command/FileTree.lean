import Clausal.Text.Source

namespace Clausal.Command

open Text

/-- Files kept in memory, each under the names on its path. The directories are
    those that files stand in. -/
structure FileTree where
  files : List (List String × String)

namespace FileTree

/-- What a path leads to. -/
inductive Node where
  | file (names : List String) (text : String)
  | directory (names : List String)

/-- Whether some file stands below the given names. -/
def isDirectory (t : FileTree) (names : List String) : Bool :=
  names.isEmpty || t.files.any fun (path, _) => names.isPrefixOf path && path != names

/-- The text of the file with the given names. -/
def text? (t : FileTree) (names : List String) : Option String :=
  (t.files.find? (·.1 == names)).map (·.2)

/-- What stands between the slashes of a path. -/
def pieces (path : String) : List String :=
  (path.toList.splitOn '/').map String.ofList

/-- The names on a path, without those that stay where they are. -/
def names (path : String) : List String :=
  (pieces path).filter fun name => name != "" && name != "."

/-- Whether only a directory can stand at the end of a path. -/
def endsInDirectory (path : String) : Bool :=
  ["", ".", ".."].contains ((pieces path).getLastD "")

/-- Follows names from a directory. -/
def follow (t : FileTree) (wantsDirectory : Bool) (place : List String) :
    List String → Except FileError Node
  | [] => .ok (.directory place)
  | name :: rest =>
    if name == ".." then t.follow wantsDirectory place.dropLast rest
    else
      let here := place ++ [name]
      if t.isDirectory here then t.follow wantsDirectory here rest
      else
        match t.text? here with
        | none => .error .notFound
        | some text =>
          if rest.isEmpty && !wantsDirectory then .ok (.file here text)
          else .error .notDirectory

/-- What a path relative to the top directory leads to. -/
def find (t : FileTree) (path : String) : Except FileError Node :=
  if path.isEmpty || path.startsWith "/" then .error .notFound
  else t.follow (endsInDirectory path) [] (names path)

/-- The content of the file at a path. A directory can be opened, and fails when
    it is read. -/
def read (t : FileTree) (path : String) : Except FileError Source :=
  match t.find path with
  | .ok (.file _ text) => .ok (Source.ofString text)
  | .ok (.directory _) => .ok (Source.failing .isDirectory)
  | .error cause => .error cause

/-- Writes a file into a directory that exists. -/
def write (t : FileTree) (path text : String) : Except FileError FileTree :=
  match t.find path with
  | .ok (.directory _) => .error .isDirectory
  | .ok (.file here _) =>
    .ok ⟨t.files.map fun (names, old) => if names == here then (names, text) else (names, old)⟩
  | .error .notFound =>
    let parts := names path
    match t.follow true [] parts.dropLast, endsInDirectory path with
    | .ok (.directory place), false => .ok ⟨t.files ++ [(place ++ [parts.getLastD ""], text)]⟩
    | .ok _, _ => .error .isDirectory
    | .error cause, _ => .error cause
  | .error cause => .error cause

/-- The files below a directory in the order of their names, as paths that start
    with the path of the directory. -/
def filesBelow (t : FileTree) (path : String) : List String :=
  match t.find path with
  | .ok (.directory place) =>
    let below := t.files.filterMap fun (names, _) =>
      if place.isPrefixOf names && names != place then some (names.drop place.length) else none
    let root := if path.endsWith "/" then path else path ++ "/"
    (below.mergeSort fun a b => (compare a b).isLE).map fun names => root ++ "/".intercalate names
  | _ => []

/-- The files that another tree has and this one has not. -/
def newFiles (t after : FileTree) : List (String × String) :=
  after.files.filterMap fun (names, text) =>
    if (t.text? names).isSome then none else some ("/".intercalate names, text)

end FileTree

end Clausal.Command
