import TreeWasm.Lowering.Module

/-! # Listings

The sections of a compiled module, one in a line, with their places and sizes.
-/

namespace TreeWasm

open Wasm

def sectionName (id : UInt8) : String :=
  match id.toNat with
  | 1 => "type"
  | 2 => "import"
  | 3 => "function"
  | 5 => "memory"
  | 6 => "global"
  | 7 => "export"
  | 8 => "start"
  | 10 => "code"
  | 11 => "data"
  | _ => ""

def Wasm.Section.listing (s : Section) : String :=
  let name := Text.padRight 8 (sectionName s.id)
  let offset := Text.padRight 6 (toString s.offset)
  s!"{name} offset={offset} size={s.size}\n"

/-- The listing of a module: its target and length, then its sections. -/
def Compiled.listing (compiled : Compiled) (target : Target) : Except ModuleFault String := do
  let bytes := compiled.encoded.bytes
  let sections ← Section.readAll bytes
  let head := s!"; target {target.name}, {bytes.length} bytes\n"
  return head ++ String.join (sections.map Section.listing)

inductive OutputForm
  | binary | listing
  deriving DecidableEq, Repr

inductive Output
  | binary (bytes : List UInt8)
  | listing (text : String)
  deriving Repr

def Program.compileTo (settings : Settings) (form : OutputForm) (program : Program) :
    Except Failure (Compiled × Output) × List Diagnostic :=
  let (result, warnings) := program.compile settings
  let outcome := do
    let compiled ← result
    match form with
    | .binary => return (compiled, .binary compiled.encoded.bytes)
    | .listing =>
      let text ← (compiled.listing settings.target).mapError (fun fault =>
        Failure.pipeline program.root.pos (.unreadableModule fault))
      return (compiled, .listing text)
  (outcome, warnings)

end TreeWasm
