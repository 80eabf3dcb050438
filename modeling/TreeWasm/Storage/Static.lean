import TreeWasm.Code.Image

/-! # Static memory

Variables of the module live one after the other in memory, from a low address on that is not 0,
so that 0 can stand for no address. A variable with a constant value gets a data segment, unless
it is all zero; any other initial value is assigned when the program starts, in the order of
declaration.
-/

namespace TreeWasm

open Wasm

structure StaticMemory where
  /-- The first address that is not taken. -/
  next : Int64
  segments : List Segment
  /-- Assignments to run at the start. -/
  inits : List Node
  address : Layout
  deriving Repr

namespace StaticMemory

def base : Int64 := 8

def empty (address : Layout) : StaticMemory := ⟨base, [], [], address⟩

/-- Reserves memory for a value and names it. -/
def alloc (memory : StaticMemory) (pos : Position) (l : Layout) : StaticMemory × Node :=
  ({ memory with next := memory.next + l.size },
    .data ⟨pos, l⟩ (.int32 ⟨pos, memory.address⟩ memory.next.toInt32) 0)

/-- Reserves memory for a variable with an initial value, which may be missing. -/
def declare (memory : StaticMemory) (pos : Position) (l : Layout) (init : Node) :
    StaticMemory × Node :=
  let start := memory.next.toUInt64.toUInt32
  let (memory, cell) := memory.alloc pos l
  if init.isAbsent then (memory, cell)
  else
    let (constant, image) := init.writeStatic (Image.zeros l.size.toInt.toNat)
    if !constant then
      ({ memory with inits := memory.inits ++ [.assign ⟨pos, .unit⟩ cell init] }, cell)
    else if image.bytes.all (· == 0) then (memory, cell)
    else
      ({ memory with segments := memory.segments ++ [⟨start, image.bytes.toList⟩] }, cell)

def isUsed (memory : StaticMemory) : Bool :=
  memory.next > base

end StaticMemory

end TreeWasm
