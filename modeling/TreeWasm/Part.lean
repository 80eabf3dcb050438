import TreeWasm.Number.Double
import TreeWasm.Typed.Type

/-! # Labelled parts

A node as its form and its parts under their labels: what listings and other tools see of it.
-/

namespace TreeWasm

inductive Part (α : Type)
  | node (x : α)
  | nodes (xs : List α)
  | text (s : String)
  | texts (s : List String)
  | integer (n : Int64)
  | integers (ns : List Int64)
  | index (n : Int)
  | indices (ns : List Nat)
  | float (x : Double)
  | flag (b : Bool)
  | type (t : Ty)

/-- The parts of a node, each with its label. -/
abbrev Parts (α : Type) := List (String × Part α)

end TreeWasm
