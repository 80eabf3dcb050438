import TreeWasm.Text.Blank
import TreeWasm.Text.Padding
import TreeWasm.Text.Path

/-! # Golden records

What a compilation and the runs of its result have put out, kept to compare later ones with, and
the verdict on a file. Durations are in nanoseconds.
-/

namespace TreeWasm.Golden

structure Execution where
  stdout : String := ""
  stderr : String := ""
  exitCode : Int64 := 0
  duration : Int64 := 0
  timedOut : Bool := false
  unstable : Bool := false
  deriving DecidableEq, Repr

/-- A named run. Arguments that are not recorded differ from none. -/
structure NamedRun where
  name : String
  args : Option (List String)
  result : Execution
  deriving DecidableEq, Repr

/-- The compilation of a source, known by the checksum of its content, and the runs after it. -/
structure Record where
  sourceHash : String := ""
  compile : Execution := {}
  runs : List NamedRun := []
  deriving DecidableEq, Repr

inductive Status
  | pass | fail | skip | error
  | other (text : String)
  deriving DecidableEq, Repr

namespace Status

def text : Status → String
  | pass => "PASS"
  | fail => "FAIL"
  | skip => "SKIP"
  | error => "ERROR"
  | other text => text

def ofText (text : String) : Status :=
  ([pass, fail, skip, error].find? (fun s => s.text == text)).getD (other text)

end Status

structure Verdict where
  file : String
  status : Status
  message : String
  diff : String := ""
  golden : Option Record := none
  target : Option Record := none
  deriving DecidableEq, Repr

/-- The record without durations, which never take part in a comparison. -/
def Record.stripDurations (r : Record) : Record :=
  { r with
    compile := { r.compile with duration := 0 }
    runs := r.runs.map (fun run => { run with result := { run.result with duration := 0 } }) }

def hasFailures (verdicts : List Verdict) : Bool :=
  verdicts.any (fun v => v.status == .fail || v.status == .error)

/-- Drops the lines in which one of the given texts occurs; empty texts are passed over. -/
def filterLines (ignored : List String) (text : String) : String :=
  let isIgnored := fun (line : String) =>
    ignored.any (fun part => part ≠ "" && Text.occurs part.toList line.toList)
  "\n".intercalate ((text.splitOn "\n").filter (fun line => !isIgnored line))

/-- The path of the golden record of a source, in a directory of its own or beside the source. -/
def recordPath (directory source : String) : String :=
  let name := "." ++ Path.base source ++ ".json"
  Path.join (if directory = "" then Path.parent source else directory) name

def reportPath (directory output : String) : String :=
  if directory = "" then output else Path.join directory output

end TreeWasm.Golden
