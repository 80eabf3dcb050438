import TreeWasm.Command.Basic

/-! # The command line -/

namespace TreeWasm

def systemHost : Host IO where
  read := fun path => do
    try return .ok (← IO.FS.readBinFile path).toList
    catch _ => return .error (OpenFault.missing.message path)
  write := fun path content => do
    try
      IO.FS.writeBinFile path ⟨content.toArray⟩
      return .ok ()
    catch _ => return .error (OpenFault.missing.message path)
  print := IO.print
  warn := IO.eprint

end TreeWasm

/-- Carries out a command line; the exit code is 1 if it fails. -/
def main (words : List String) : IO UInt32 := do
  match ← TreeWasm.Command.outcome TreeWasm.systemHost words with
  | none => return 0
  | some fault =>
    IO.eprint fault.report
    return 1
