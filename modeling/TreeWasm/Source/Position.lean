/-! # Positions in source files

A position names a file by its index and a place in it by line and column. It also keeps the
length and the text of the scalar that stands there, since two positions are the same only if
these agree.
-/

namespace TreeWasm

/-- A place in a source file. Line 0 means that the place is not known. -/
structure Position where
  file : Int
  line : Int
  column : Int
  length : Int
  text : String
  deriving DecidableEq, Repr

namespace Position

/-- No place in particular, in the first file. -/
def unset : Position := ⟨0, 0, 0, 0, ""⟩

/-- No place in any file. -/
def nowhere : Position := ⟨-1, 0, 0, 0, ""⟩

end Position

structure SourceFile where
  name : String
  content : String
  deriving DecidableEq, Repr

namespace SourceFile

def lines (file : SourceFile) : List String :=
  file.content.splitOn "\n"

/-- The text of a line, counted from 1. Numbers past the end give the last line. -/
def line (file : SourceFile) (number : Int) : String :=
  let lines := file.lines
  (lines[min (number - 1).toNat (lines.length - 1)]?).getD ""

end SourceFile

abbrev Sources := List SourceFile

namespace Sources

def file? (sources : Sources) (index : Int) : Option SourceFile :=
  if index < 0 then none else sources[index.toNat]?

/-- A position as `file:line:column`; a file that is not registered is called `<input>`. -/
def location (sources : Sources) (pos : Position) : String :=
  let name := (sources.file? pos.file).elim "<input>" SourceFile.name
  s!"{name}:{pos.line}:{pos.column}"

/-- The line a position points into and a caret under it, when both are known. -/
def excerpt (sources : Sources) (pos : Position) : String :=
  match sources.file? pos.file with
  | none => ""
  | some file =>
    if pos.line = 0 then ""
    else
      let caret := "^" ++ "".pushn '~' (pos.length - 1).toNat
      let indent := "".pushn ' ' (pos.column - 1).toNat
      s!"  {file.line pos.line}\n  {indent}{caret}\n"

end Sources

/-- A name that is used: where it stands, and where what it stands for is declared. -/
structure Resolution where
  use : Position
  name : String
  declared : Position
  deriving DecidableEq, Repr

end TreeWasm
