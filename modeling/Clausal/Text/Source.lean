import Clausal.Error

namespace Clausal.Text

/-- Input as it is met line by line. A line that cannot be read stands for the
    failure met when the reader gets there. -/
abbrev Source := List (Except FileError (List Char))

/-- Splits at every line end. A return in front of a line end belongs to it, and
    an empty stretch behind the last line end is no line. -/
def splitLines {α : Type} [DecidableEq α] (newline carriage : α) (text : List α) :
    List (List α) :=
  let pieces := text.splitOn newline
  let ended := pieces.dropLast.map fun line =>
    if line.getLast? = some carriage then line.dropLast else line
  ended ++ (pieces.getLast?.toList.filter fun line => !line.isEmpty)

namespace Source

/-- The lines of a text. -/
def ofText (text : List Char) : Source :=
  (splitLines '\n' '\r' text).map .ok

/-- The lines of a string. -/
def ofString (text : String) : Source := ofText text.toList

/-- The lines of a byte sequence. A line that is not well-formed UTF-8 cannot be
    read. -/
def ofBytes (bytes : List UInt8) : Source :=
  (splitLines 10 13 bytes).map fun line =>
    match String.fromUTF8? ⟨line.toArray⟩ with
    | some text => .ok text.toList
    | none => .error .invalidUtf8

/-- Input that fails as soon as it is read. -/
def failing (cause : FileError) : Source := [.error cause]

end Source

end Clausal.Text
