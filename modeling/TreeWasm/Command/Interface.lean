import TreeWasm.Command.Value
import TreeWasm.Text.Utf8
import TreeWasm.Wasm.Sections

/-! # Interfaces of binary modules

The functions that a binary module exports, with the kinds of their parameters. Only the sections
on types, imports, functions and exports are looked into.
-/

namespace TreeWasm

open Wasm

namespace Interface

def number (bytes : List UInt8) : Option (Nat × List UInt8) :=
  match Leb128.read bytes with
  | .ok (value, used) => some (value, bytes.drop used)
  | .error _ => none

/-- Bytes behind their number, and what follows them. -/
def counted (bytes : List UInt8) : Option (List UInt8 × List UInt8) := do
  let (size, rest) ← number bytes
  if size ≤ rest.length then some (rest.take size, rest.drop size) else none

def name (bytes : List UInt8) : Option (String × List UInt8) :=
  (counted bytes).map (fun (text, rest) => (Text.ofBytes text, rest))

/-- A size, with a greatest one if a flag says so. -/
def limits : List UInt8 → Option (List UInt8)
  | [] => none
  | flag :: rest => do
    let (_, rest) ← number rest
    if flag % 2 = 0 then some rest else (number rest).map Prod.snd

def items {α : Type} (item : List UInt8 → Option (α × List UInt8)) :
    Nat → List UInt8 → Option (List α)
  | 0, _ => some []
  | count + 1, bytes => do
    let (first, rest) ← item bytes
    let others ← items item count rest
    return first :: others

/-- A signature: its parameters. -/
def signature : List UInt8 → Option (List ValueKind × List UInt8)
  | 0x60 :: rest => do
    let (params, rest) ← counted rest
    let (_, rest) ← counted rest
    return (params.map .ofByte, rest)
  | _ => none

/-- An import: the index of its signature if it is a function. -/
def importEntry (bytes : List UInt8) : Option (Option Nat × List UInt8) := do
  let (_, rest) ← name bytes
  let (_, rest) ← name rest
  match rest with
  | 0x00 :: rest => (number rest).map (fun (index, rest) => (some index, rest))
  | 0x01 :: _ :: rest => (limits rest).map (none, ·)
  | 0x02 :: rest => (limits rest).map (none, ·)
  | 0x03 :: _ :: _ :: rest => some (none, rest)
  | _ => none

/-- An export: its name, and the index of the function if it is one. -/
def exportEntry (bytes : List UInt8) : Option ((String × Option Nat) × List UInt8) := do
  let (name, rest) ← name bytes
  match rest with
  | kind :: rest =>
    let (index, rest) ← number rest
    return ((name, if kind = 0 then some index else none), rest)
  | [] => none

/-- The items of the first section with the given id; none without such a section. -/
def sectionItems {α : Type} (bytes : List UInt8) (sections : List Section) (id : UInt8)
    (item : List UInt8 → Option (α × List UInt8)) : Option (List α) :=
  match sections.find? (fun s => s.id == id) with
  | none => some []
  | some s => do
    let (count, rest) ← number ((bytes.drop s.offset).take s.size)
    items item count rest

end Interface

open Interface in
/-- The exported functions of a binary module by name, with their parameters. -/
def exportedFunctions? (bytes : List UInt8) : Option (List (String × List ValueKind)) := do
  let sections ← (Section.readAll bytes).toOption
  let types ← sectionItems bytes sections 1 signature
  let imports ← sectionItems bytes sections 2 importEntry
  let functions ← sectionItems bytes sections 3 number
  let exports ← sectionItems bytes sections 7 exportEntry
  let all := imports.filterMap id ++ functions
  exports.filterMapM (fun (name, index) =>
    match index with
    | none => some none
    | some index => do
      let params ← (all[index]?).bind (types[·]?)
      return some (name, params))

end TreeWasm
