import TreeWasm.Source.Position
import TreeWasm.Text.Padding

/-! # Source maps

A table of byte offsets in a module with the places in the source that they come from.
-/

namespace TreeWasm

def sourceMap (sources : Sources) (marks : List (Nat × Position)) : String :=
  String.join (marks.map (fun (offset, pos) =>
    s!"0x{Text.hex 6 offset} {sources.location pos}\n"))

end TreeWasm
