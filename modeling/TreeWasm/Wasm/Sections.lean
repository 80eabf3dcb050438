import TreeWasm.Wasm.Leb128

/-! # Sections of a binary module

The top-level records of a module: id, length, content, one after the other.
-/

namespace TreeWasm.Wasm

/-- One section, by the place and size of its content. -/
structure Section where
  id : UInt8
  offset : Nat
  size : Nat
  deriving DecidableEq, Repr

namespace Section

/-- Reads the sections of `bytes`, which stand at `pos` in the module. -/
def readFrom (pos : Nat) (bytes : List UInt8) : Except ModuleFault (List Section) :=
  match bytes with
  | [] => .ok []
  | id :: rest =>
    match Leb128.read rest with
    | .error fault => .error fault
    | .ok (size, used) =>
      let content := rest.drop used
      if size ≤ content.length then
        let start := pos + 1 + used
        match readFrom (start + size) (content.drop size) with
        | .ok sections => .ok (⟨id, start, size⟩ :: sections)
        | .error fault => .error fault
      else .error (.sectionOverrun id)
  termination_by bytes.length
  decreasing_by
    simp only [List.length_drop, List.length_cons]
    omega

/-- The sections of a module, which starts with four fixed bytes and four of its version. -/
def readAll (bytes : List UInt8) : Except ModuleFault (List Section) :=
  if 8 ≤ bytes.length ∧ bytes.take 4 = [0x00, 0x61, 0x73, 0x6D] then readFrom 8 (bytes.drop 8)
  else .error .missingHeader

end Section

end TreeWasm.Wasm
