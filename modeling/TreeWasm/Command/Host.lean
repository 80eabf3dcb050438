import TreeWasm.Text.Path
import TreeWasm.Text.Utf8

/-! # Hosts

What a command needs from the world around it: files to read and write, and places for its output
and its warnings. A workspace is a host that keeps all of it in memory.
-/

namespace TreeWasm

/-- Access to files and output in a monad. A file that cannot be read or written gives the reason
as text. -/
structure Host (m : Type → Type) where
  read : String → m (Except String (List UInt8))
  write : String → List UInt8 → m (Except String Unit)
  print : String → m Unit
  warn : String → m Unit

inductive OpenFault
  | missing
  | notDirectory
  | isDirectory
  | invalid
  | tooLong
  deriving DecidableEq, Repr

namespace OpenFault

def reason : OpenFault → String
  | missing => "no such file or directory"
  | notDirectory => "not a directory"
  | isDirectory => "is a directory"
  | invalid => "invalid argument"
  | tooLong => "file name too long"

def message (fault : OpenFault) (path : String) : String :=
  s!"open {path}: {fault.reason}"

end OpenFault

/-- Files by the parts of their paths, and what has been printed. Parts `..` at the start of a path
lead out of the workspace, into directories that exist and of which nothing else is known. -/
structure Workspace where
  files : List (List String × List UInt8) := []
  printed : String := ""
  warned : String := ""
  deriving DecidableEq, Repr

namespace Workspace

def ofTexts (files : List (String × String)) : Workspace :=
  { files := files.map (fun (path, text) => ((Path.clean path).splitOn "/", Text.bytes text)) }

/-- Whether the parts lead to a directory: one around the workspace, the workspace itself, or one
that holds a file. -/
def isDirectory (w : Workspace) (place : List String) : Bool :=
  place.all (· = "..") || w.files.any (fun (file, _) => place.isPrefixOf file && place ≠ file)

def isFile (w : Workspace) (place : List String) : Bool := (w.files.lookup place).isSome

/-- Follows the parts of a path from a place on. Every part but the last has to be a directory; a
part after a slash at the end counts too. -/
def walk (w : Workspace) : (place : List String) → List String → Except OpenFault (List String)
  | place, [] => .ok place
  | place, part :: rest =>
    if w.isFile place then .error .notDirectory
    else if !w.isDirectory place then .error .missing
    else if part = "" ∨ part = "." then walk w place rest
    else if part = ".." then
      walk w (if place.all (· = "..") then ".." :: place else place.dropLast) rest
    else if 255 < part.utf8ByteSize then .error .tooLong
    else walk w (place ++ [part]) rest

def resolve (w : Workspace) (path : String) : Except OpenFault (List String) :=
  if path = "" ∨ path.startsWith "/" then .error .missing
  else if path.contains '\x00' then .error .invalid
  else if 4096 ≤ path.utf8ByteSize then .error .tooLong
  else w.walk [] (path.splitOn "/")

def find? (w : Workspace) (path : String) : Option (List UInt8) :=
  match w.resolve path with
  | .ok place => w.files.lookup place
  | .error _ => none

def put (w : Workspace) (place : List String) (content : List UInt8) : Workspace :=
  { w with files := (place, content) :: w.files.filter (fun (name, _) => name != place) }

/-- A file that holds nothing and takes anything. -/
def sink : String := "/dev/null"

def read (path : String) : StateM Workspace (Except String (List UInt8)) := do
  let w ← get
  if path = sink then return .ok []
  match w.resolve path with
  | .error fault => return .error (fault.message path)
  | .ok place =>
    match w.files.lookup place with
    | some content => return .ok content
    | none =>
      if w.isDirectory place then return .error s!"read {path}: is a directory"
      else return .error (OpenFault.missing.message path)

/-- Writes a file. A path with a slash at its end is that of a directory. -/
def write (path : String) (content : List UInt8) : StateM Workspace (Except String Unit) := do
  let w ← get
  if path = sink then return .ok ()
  match w.resolve (path.dropEndWhile '/').toString with
  | .error fault => return .error (fault.message path)
  | .ok place =>
    if path.endsWith "/" || w.isDirectory place then
      return .error (OpenFault.isDirectory.message path)
    else
      set (w.put place content)
      return .ok ()

def content (path : String) : Option String → Except String String
  | some text => .ok text
  | none => .error (OpenFault.missing.message path)

def host : Host (StateM Workspace) where
  read := read
  write := write
  print := fun text => modify (fun w => { w with printed := w.printed ++ text })
  warn := fun text => modify (fun w => { w with warned := w.warned ++ text })

end Workspace

end TreeWasm
