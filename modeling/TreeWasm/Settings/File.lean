import TreeWasm.Settings.Basic
import TreeWasm.Settings.File.Value

/-! # Settings files

A settings file is a list of `key = value` lines, under headers `[name]` that open a table and
`[[name]]` that add one to those sharing a key. Of its outermost table four keys have a meaning; the
rest is read and left aside.

Reading refuses a malformed file, a key given twice, a header given twice, and a known key with a
value of another kind.
-/

namespace TreeWasm

/-- A settings file read so far: its outermost table, the path of the table that keys go into, and
the headers as they were written. -/
structure SettingsFile where
  root : FileTable := []
  path : List String := []
  headers : List (List Char) := []
  deriving Inhabited

namespace SettingsFile

/-- Splits the name of a header off a text, up to its closing brackets. -/
def readHeader (close : List Char) (cs : List Char) :
    Except FileFault (List Char × List Char) :=
  let name := cs.takeWhile (fun c => c ≠ '[' && c ≠ ']')
  let rest := cs.drop name.length
  if !name.isEmpty && close.isPrefixOf rest then .ok (name, rest.drop close.length)
  else .error .malformed

def openTable (file : SettingsFile) (name : List Char) : Except FileFault SettingsFile := do
  if file.headers.contains name then .error .malformed
  let path ← need (keyParts name)
  let root ← need (file.root.openPath? path)
  match root.find? path with
  | some (.table true _) => .error .malformed
  | _ => return ⟨root, path, name :: file.headers⟩

/-- Adds a table to those that share the key of a header. Headers of tables within the one before
it may be given again. -/
def addTable (file : SettingsFile) (name : List Char) : Except FileFault SettingsFile := do
  let path ← need (keyParts name)
  let root := (file.root.openPath? path.dropLast).getD file.root
  let headers := file.headers.filter (fun header => !(name ++ ['.']).isPrefixOf header)
  match root.find? path with
  | none | some (.tables _ _) =>
    return ⟨FileTable.setPath (.tables false []) path root, path, name :: headers⟩
  | some _ => .error .malformed

def addKey (file : SettingsFile) (key : List String) (value : FileValue) :
    Except FileFault SettingsFile := do
  let root ← need (file.root.add? (file.path ++ key.dropLast) (key.getLastD "") value)
  return { file with root := root }

/-- What comes after the value of a key: blanks and a comment, up to the end of the line. -/
def readLineEnd (cs : List Char) : Except FileFault (List Char) :=
  match skipComment (skipBlanks cs) with
  | [] => .ok []
  | c :: rest => if isBreak c then .ok rest else .error .malformed

/-- Reads headers and keys, at most `count` of them. The fuel bounds the steps for one key and its
value. -/
def readLines (fuel : Nat) : (count : Nat) → SettingsFile → List Char →
    Except FileFault SettingsFile
  | 0, _, _ => .error .malformed
  | count + 1, file, cs =>
    match skipLines cs with
    | [] => .ok file
    | '[' :: '[' :: rest => do
      let (name, rest) ← readHeader [']', ']'] rest
      readLines fuel count (← file.addTable name) rest
    | '[' :: rest => do
      let (name, rest) ← readHeader [']'] rest
      readLines fuel count (← file.openTable name) rest
    | cs => do
      let (key, rest) ← readKey fuel cs
      let (value, rest) ← readValue fuel rest
      let file ← file.addKey key value
      readLines fuel count file (← readLineEnd rest)

def parse (text : String) : Except FileFault SettingsFile :=
  let cs := text.toList
  let cs := if cs.head? = some '\ufeff' then cs.drop 1 else cs
  readLines (2 * cs.length + 2) (cs.length + 1) {} cs

/-- The value of a key, which may also be written in capitals. -/
def value? (file : SettingsFile) (key : String) : Option FileValue :=
  file.root.lookup key <|> file.root.lookup key.toUpper

/-- The keys that have a meaning, with values of the right kinds. -/
structure Known where
  target : String
  features : List String
  warnings : List String
  maxPages : Int64
  deriving DecidableEq, Repr

def textAt (file : SettingsFile) (key : String) : Option String :=
  match file.value? key with
  | none => some ""
  | some (.text value) => some value
  | _ => none

def textsAt (file : SettingsFile) (key : String) : Option (List String) :=
  match file.value? key with
  | none => some []
  | some (.array items) => items.mapM (fun item => match item with
      | .text value => some value
      | _ => none)
  | _ => none

def integerAt (file : SettingsFile) (key : String) : Option Int64 :=
  match file.value? key with
  | none => some 0
  | some (.integer value) => some value
  | _ => none

def known? (file : SettingsFile) : Option Known := do
  let target ← file.textAt "target"
  let features ← file.textsAt "features"
  let warnings ← file.textsAt "warnings"
  let maxPages ← file.integerAt "max-pages"
  return ⟨target, features, warnings, maxPages⟩

end SettingsFile

inductive SettingsFileFault
  | unreadable (reason : String)
  | malformed (path : String) (fault : FileFault)
  | refused (path : String) (fault : SettingsFault)
  deriving DecidableEq, Repr

def SettingsFileFault.message : SettingsFileFault → String
  | unreadable reason => reason
  | malformed path .leadingZero => s!"{path}: invalid base"
  | malformed path .malformed => s!"{path}: malformed settings file"
  | refused path fault => s!"{path}: {fault.message}"

/-- Applies a settings file: the target first, then the page limit, then the flags. What was
applied before a fault stays so. The file comes as its text, or the reason why it cannot be
read. -/
def Settings.load (s : Settings) (path : String) (text : Except String String) :
    Settings × Option SettingsFileFault :=
  match text with
  | .error reason => (s, some (.unreadable reason))
  | .ok text =>
    match (SettingsFile.parse text).bind (fun file => SettingsFile.need file.known?) with
    | .error fault => (s, some (.malformed path fault))
    | .ok known =>
      match (if known.target = "" then .ok s else s.setTarget known.target) with
      | .error fault => (s, some (.refused path fault))
      | .ok s =>
        let flags := known.features.map ("F" ++ ·) ++ known.warnings.map ("W" ++ ·)
        let (s, fault) := { s with maxPages := known.maxPages }.process flags
        (s, fault.map (.refused path))

end TreeWasm
