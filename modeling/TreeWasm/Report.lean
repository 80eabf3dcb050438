import TreeWasm.Fault
import TreeWasm.Settings.Basic

/-! # Reports

Errors and warnings as they are shown: the location, the message, and the line of source they point
into with a caret under it.
-/

namespace TreeWasm

/-- Something worth telling about a program that compiles. -/
inductive Notice
  | unreachable
  | unusedResult
  | constantCondition (value : Bool)
  | stated (warning : Warning) (text : String)
  deriving DecidableEq, Repr

namespace Notice

def warning : Notice → Warning
  | unreachable => .unreachableCode
  | unusedResult => .extra
  | constantCondition _ => .deadBranch
  | stated warning _ => warning

def message : Notice → String
  | unreachable => "Unreachable code"
  | unusedResult => "Expression result is unused"
  | constantCondition value => s!"Condition is always {value}"
  | stated _ text => text

end Notice

structure Diagnostic where
  pos : Position
  notice : Notice
  deriving DecidableEq, Repr

def Diagnostic.report (sources : Sources) (d : Diagnostic) : String :=
  s!"{sources.location d.pos}: warning: {d.notice.message} [-W{d.notice.warning.name}]\n" ++
    sources.excerpt d.pos

def Settings.wants (s : Settings) (d : Diagnostic) : Bool :=
  s.warnings d.notice.warning

def Failure.report (sources : Sources) (failure : Failure) : String :=
  s!"{sources.location failure.pos}: error: {failure.message}\n" ++ sources.excerpt failure.pos

def reportPlain (message : String) : String :=
  s!"gbw: error: {message}\n"

/-- The least multiple of a power of two that is no less than a number, within 64 bits. -/
def alignUp (n align : Int64) : Int64 :=
  if align ≤ 1 then n else (n + align - 1) &&& ~~~(align - 1)

end TreeWasm
