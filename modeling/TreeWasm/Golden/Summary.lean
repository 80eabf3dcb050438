import TreeWasm.Golden.Record

/-! # Summaries of a suite

What is shown after the files of a suite have been tested: each verdict, how many there are of each
kind, and how long compilations and runs took.
-/

namespace TreeWasm.Golden

/-- How text is set off on a terminal. -/
inductive Style
  | red | yellow | green | cyan | bold
  deriving DecidableEq, Repr

namespace Style

def plain : String := "\x1b[0m"

def start : Style → String
  | red => "\x1b[91m"
  | yellow => "\x1b[93m"
  | green => "\x1b[92m"
  | cyan => "\x1b[96m"
  | bold => "\x1b[1m"

def paint (style : Style) (text : String) : String :=
  style.start ++ text ++ plain

end Style

/-- A duration in microseconds if it is below a millisecond, else in milliseconds. -/
def durationText (d : Int64) : String :=
  if d < 1000000 then Text.padLeft 6 ' ' (toString (d / 1000).toInt) ++ "µs"
  else Text.padLeft 6 ' ' (toString (d / 1000000).toInt) ++ "ms"

/-- A duration without blanks before it. -/
def durationWord (d : Int64) : String :=
  String.ofList ((durationText d).toList.dropWhile Text.isBlank)

/-- A diff with its removed and added lines in colour. -/
def diffText (diff : String) : String :=
  if diff = "" then ""
  else
    let shown := fun (line : String) =>
      let color := match Text.firstVisible? line with
        | some '-' => Style.red.start
        | some '+' => Style.green.start
        | _ => ""
      s!"{color}    {line}{Style.plain}\n"
    "    --- Diff ---\n" ++ String.join ((diff.splitOn "\n").map shown)

/-- How a status is set off; other ones are not shown. -/
def Status.style? : Status → Option Style
  | pass => some .green
  | fail | error => some .red
  | skip => some .yellow
  | other _ => none

def rule : String := "".pushn '-' 70 ++ "\n"

namespace Record

def runTime (r : Record) : Int64 :=
  r.runs.foldl (fun total run => total + run.result.duration) 0

/-- The durations of a record, run names padded to a width. -/
def timing (width : Nat) (r : Record) : String :=
  let line := fun (run : NamedRun) =>
    s!"         {Text.padRight width run.name} {durationText run.result.duration}\n"
  String.join (r.runs.map line) ++
    s!"         [comp: {durationText r.compile.duration} | runt: {durationText r.runTime}]\n"

end Record

/-- A verdict as it is shown, with the durations of its target if a width is given. -/
def Verdict.text (width : Option Nat) (v : Verdict) : String :=
  let status := match v.status.style? with
    | some style => s!"  [{style.paint v.status.text}] {v.message}\n"
    | none => ""
  let diff := if v.status = .fail then diffText v.diff ++ "\n" else ""
  let timing := match width, v.target with
    | some width, some target => target.timing width
    | _, _ => ""
  rule ++ s!"Testing {Style.cyan.paint v.file}...\n" ++ status ++ diff ++ timing

def nameWidth (targets : List Record) : Nat :=
  targets.foldl (fun width r =>
    r.runs.foldl (fun width run => max width run.name.utf8ByteSize) width) 0

def average (durations : List Int64) : Int64 :=
  durations.foldl (· + ·) 0 / Int64.ofNat durations.length

/-- The summary of a suite that was compiled with the program at the given path. -/
def summary (compiler : String) (verbose : Bool) (verdicts : List Verdict) : String :=
  let targets := verdicts.filterMap Verdict.target
  let width := if verbose then some (nameWidth targets) else none
  let count := fun (status : Status) (style : Style) (label : String) =>
    style.paint s!"{(verdicts.filter (fun v => v.status == status)).length} {label}"
  let counts := [count .pass .green "Passed", count .fail .red "Failed",
    count .skip .yellow "Skipped", count .error .red "Errored", s!"{verdicts.length} Total"]
  let head := Style.bold.paint "Test Summary:"
  let times :=
    if targets.isEmpty then ""
    else
      let program := Style.bold.paint (Path.base compiler)
      let compiling := durationWord (average (targets.map (fun r => r.compile.duration)))
      let running := durationWord (average (targets.map Record.runTime))
      s!"---\nOn average, {program} took {compiling} to compile a file and {running} to run it.\n"
  String.join (verdicts.map (Verdict.text width)) ++ rule ++
    head ++ " " ++ ", ".intercalate counts ++ "\n" ++ times

end TreeWasm.Golden
