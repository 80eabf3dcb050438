import TreeWasm.Code.Access
import TreeWasm.Code.Emit

/-! # Addresses and places

Where values in memory and in slots are found and written. An address is a piece of code still to be
emitted: it may be emitted again where it is cheap and has no effect, and is kept in a scratch slot
otherwise.
-/

namespace TreeWasm

open Wasm

/-- An address whose code may be emitted where it is needed. -/
structure Address where
  /-- Whether the code may be repeated: a constant or a local. -/
  stable : Bool
  layout : Layout
  code : Emit Code

namespace Address

/-- The address `address + index * size`, at the given position. -/
def offsetBy (address : Address) (pos : Position) (index : Int32) (size : Int64) : Address where
  stable := false
  layout := address.layout
  code := do
    let scale := if size = 1 then [] else [.const32 size.toInt32, .numeric (.int .w32 .mul)]
    return .mark pos :: (← address.code) ++
      [.mark pos, .const32 index] ++ scale ++ [.numeric (.int .w32 .add)]

/-- An address that is used a number of times. When its code may not be repeated it is kept in
scratch slots: the code that fills them, and the slots to release afterwards. -/
def hold (address : Address) (uses : Int) : Emit (Code × Address × List Nat) := do
  if address.stable || uses ≤ 1 then return ([], address, [])
  let slots ← Emit.allocScratch address.layout
  let code ← address.code
  let kept := { address with stable := true, code := pure (slots.map .localGet) }
  return (code ++ (slots.take 1).map .localSet, kept, slots)

end Address

inductive Place
  | slots (info : Info) (slots : List Nat)
  | memory (info : Info) (address : Address) (offset : Int64)
  | none (pos : Position) (form : String)

namespace Place

def part (index : Nat) : Place → Except Failure Place
  | none pos form => .error (.code pos (.cannotSelect form))
  | slots info held =>
    match info.layout with
    | .array _ elem count _ =>
      let bound := count.getD 0
      if Int64.ofNat index ≥ bound then
        .error (.code info.pos (.indexRange (Int64.ofNat index) bound))
      else do
        let kinds ← elem.flatten.mapError Failure.layout
        return slots ⟨info.pos, elem⟩
          (Node.slotRange held (index * kinds.length) kinds.length)
    | l => do
      let field ← (l.selectIndex index).mapError Failure.layout
      let kinds ← field.layout.flatten.mapError Failure.layout
      return slots ⟨info.pos, field.layout⟩ (Node.slotRange held field.slot kinds.length)
  | memory info address offset =>
    match info.layout with
    | .array _ elem _ _ =>
      .ok (memory ⟨info.pos, elem⟩
        (address.offsetBy info.pos (Int32.ofNat index) elem.size) offset)
    | l => do
      let field ← (l.selectIndex index).mapError Failure.layout
      return memory ⟨info.pos, field.layout⟩ address (offset + field.offset)

/-- Writes slots to the leaves of a value in memory. -/
def storeSlots (info : Info) (address : Address) (offset : Int64) (held : List Nat) :
    Emit Code := do
  let leaves ← Emit.ofLayout info.layout.leaves
  if leaves.length ≠ held.length then
    Emit.fail info.pos (.slotCount held.length info.layout.text)
  let (setup, kept, spilled) ← address.hold leaves.length
  let writes ← (leaves.zip held).mapM (fun (leaf, slot) => do
    let code ← kept.code
    let store ← Emit.ofLayout (leaf.layout.store (offset + leaf.offset))
    return code ++ [.localGet slot, store])
  Emit.releaseScratch spilled
  return setup ++ writes.flatten

/-- Pops a value off the stack and writes it to a place. -/
def consume : Place → Emit Code
  | none pos form => Emit.fail pos (.notAssignable form)
  | slots _ held => return held.reverse.map .localSet
  | memory info address offset => do
    let held ← Emit.allocScratch info.layout
    let code ← storeSlots info address offset held
    Emit.releaseScratch held
    return held.reverse.map .localSet ++ code

end Place

/-- One access of a copy in memory: its offset and how it reads and writes. -/
structure Transfer where
  offset : Nat
  width : Nat
  deriving DecidableEq, Repr

namespace Transfer

def loadOp (t : Transfer) : LoadOp :=
  match t.width with
  | 8 => .whole .i64
  | 4 => .whole .i32
  | 2 => .half .unsigned
  | _ => .byte .unsigned

def storeOp (t : Transfer) : StoreOp :=
  match t.width with
  | 8 => .whole .i64
  | 4 => .whole .i32
  | 2 => .half
  | _ => .byte

/-- The widths of the accesses that copy a number of bytes, widest first. -/
def widths (size : Nat) : List Nat :=
  List.replicate (size / 8) 8 ++ (if size / 4 % 2 = 1 then [4] else []) ++
    (if size / 2 % 2 = 1 then [2] else []) ++ (if size % 2 = 1 then [1] else [])

def place (offset : Nat) : List Nat → List Transfer
  | [] => []
  | width :: rest => ⟨offset, width⟩ :: place (offset + width) rest

def covering (size : Nat) : List Transfer :=
  place 0 (widths size)

end Transfer

/-- An offset cut to the 32 bits of an immediate. -/
def immediate (offset : Int64) : Nat :=
  offset.toUInt64.toUInt32.toNat

def copyMemory (size : Int64) (target : Address) (targetOffset : Int64) (source : Address)
    (sourceOffset : Int64) : Emit Code := do
  let uses := size.toInt.tdiv 8 + size.toInt.tmod 8
  let (targetSetup, target, targetSlots) ← target.hold uses
  let (sourceSetup, source, sourceSlots) ← source.hold uses
  let copies ← (Transfer.covering size.toInt.toNat).mapM (fun t => do
    let targetCode ← target.code
    let sourceCode ← source.code
    let offset := Int64.ofNat t.offset
    return targetCode ++ sourceCode ++
      [.load t.loadOp (immediate (sourceOffset + offset)),
        .store t.storeOp (immediate (targetOffset + offset))])
  Emit.releaseScratch sourceSlots
  Emit.releaseScratch targetSlots
  return targetSetup ++ sourceSetup ++ copies.flatten

end TreeWasm
