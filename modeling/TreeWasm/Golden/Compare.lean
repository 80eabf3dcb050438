import TreeWasm.Golden.Record

/-! # Comparing with golden records

A target agrees with a golden record if the compilation and every recorded run agree in exit code,
timeout, stability and output, lines to be ignored apart.
-/

namespace TreeWasm.Golden

/-- One disagreement of a target with its golden record. -/
inductive Mismatch
  | exitCode (what : String) (golden target : Int64)
  | timeout (what : String) (golden target : Bool)
  | stability (what : String) (golden target : Bool)
  | stdout (what golden target : String)
  | stderr (what golden target : String)
  | missingRun (name : String)
  deriving DecidableEq, Repr

namespace Mismatch

def pair (head golden target : String) : String :=
  s!"{head} mismatch:\n  - Golden: {golden}\n  - Target: {target}\n"

def outputs (head golden target : String) : String :=
  let lines := fun (mark text : String) =>
    String.join ((text.splitOn "\n").map (fun line => mark ++ line ++ "\n"))
  s!"{head} mismatch:\n" ++ lines "-" golden ++ lines "+" target

def text : Mismatch → String
  | exitCode what golden target =>
    pair s!"{what} exit code" (toString golden.toInt) (toString target.toInt)
  | timeout what golden target => pair s!"{what} timeout" (toString golden) (toString target)
  | stability what golden target =>
    pair s!"{what} output stability" (toString golden) (toString target)
  | stdout what golden target => outputs s!"{what} STDOUT" golden target
  | stderr what golden target => outputs s!"{what} STDERR" golden target
  | missingRun name => s!"Run '{name}' missing in target results.\n"

end Mismatch

def Execution.mismatches (ignored : List String) (what : String) (golden target : Execution) :
    List Mismatch :=
  let note := fun (differ : Bool) (mismatch : Mismatch) => if differ then [mismatch] else []
  let shown := filterLines ignored
  note (golden.exitCode != target.exitCode) (.exitCode what golden.exitCode target.exitCode) ++
    note (golden.timedOut != target.timedOut) (.timeout what golden.timedOut target.timedOut) ++
    note (golden.unstable != target.unstable) (.stability what golden.unstable target.unstable) ++
    note (shown golden.stdout != shown target.stdout) (.stdout what golden.stdout target.stdout) ++
    note (shown golden.stderr != shown target.stderr) (.stderr what golden.stderr target.stderr)

/-- The disagreements of two records. Of runs with one name in the target the last counts, and runs
that only the target has are passed over. -/
def Record.mismatches (ignored : List String) (golden target : Record) : List Mismatch :=
  golden.compile.mismatches ignored "Compile" target.compile ++
    golden.runs.flatMap (fun run =>
      match target.runs.reverse.find? (fun other => other.name == run.name) with
      | none => [.missingRun run.name]
      | some other => run.result.mismatches ignored s!"Run '{run.name}'" other.result)

/-- The texts of a list with commas. -/
def ignoredTexts (list : String) : List String :=
  if list = "" then [] else list.splitOn ","

def compare (ignore file : String) (golden target : Record) : Verdict :=
  let mismatches := golden.mismatches (ignoredTexts ignore) target
  let verdict : Verdict := ⟨file, .pass, "", "", some golden, some target⟩
  if !mismatches.isEmpty then
    { verdict with
      status := .fail
      message := "Output or exit code mismatch"
      diff := String.join (mismatches.map Mismatch.text) }
  else if golden.compile.exitCode ≠ 0 then
    { verdict with message := "Compilation failed as expected" }
  else { verdict with message := "All runs match the golden file" }

/-- The verdict on a file that needs no run: there is no golden record, or an earlier target of the
same content has passed against the same record. -/
def settled? (file hash : String) (golden : Option Record) (previous : Option Verdict) :
    Option Verdict :=
  match golden, previous with
  | none, _ =>
    some { file, status := .skip,
           message := "Cannot test without a corresponding .json golden file" }
  | some golden, some earlier =>
    let sameSource := earlier.target.any (fun target => target.sourceHash == hash)
    let sameRecord := earlier.golden.any (fun old => old.stripDurations == golden.stripDurations)
    if earlier.status = .pass && sameSource && sameRecord then
      some { earlier with message := earlier.message ++ " (cached)" }
    else none
  | some _, none => none

end TreeWasm.Golden
