import TreeWasm.Number.Double
import TreeWasm.Wasm.Leb128
import TreeWasm.Wasm.Numeric

/-! # Instructions

Structured instructions and their binary form. A `mark` notes the source position that the
following code comes from: it has no bytes, but its offset in the code can be asked for.
-/

namespace TreeWasm.Wasm

/-- Memory reads: whole words and numbers, and narrow integers that fill an `i32`. -/
inductive LoadOp
  | whole (type : ValType)
  | byte (s : Sign)
  | half (s : Sign)
  deriving DecidableEq, Repr

/-- Memory writes: whole words and numbers, and the low part of an `i32`. -/
inductive StoreOp
  | whole (type : ValType)
  | byte
  | half
  deriving DecidableEq, Repr

/-- The exponent of the natural alignment of a value type. -/
def ValType.alignment : ValType → Nat
  | .i32 | .f32 => 2
  | .i64 | .f64 => 3
  | .invalid => 3

namespace LoadOp

def opcode : LoadOp → UInt8
  | whole .i64 => 0x29
  | whole .f32 => 0x2A
  | whole .f64 => 0x2B
  | whole _ => 0x28
  | byte .signed => 0x2C
  | byte .unsigned => 0x2D
  | half .signed => 0x2E
  | half .unsigned => 0x2F

def alignment : LoadOp → Nat
  | whole type => type.alignment
  | byte _ => 0
  | half _ => 1

def result : LoadOp → ValType
  | whole type => type
  | byte _ | half _ => .i32

end LoadOp

namespace StoreOp

def opcode : StoreOp → UInt8
  | whole .i64 => 0x37
  | whole .f32 => 0x38
  | whole .f64 => 0x39
  | whole _ => 0x36
  | byte => 0x3A
  | half => 0x3B

def alignment : StoreOp → Nat
  | whole type => type.alignment
  | byte => 0
  | half => 1

def operand : StoreOp → ValType
  | whole type => type
  | byte | half => .i32

end StoreOp

inductive Instr
  | unreachable
  | nop
  | drop
  | ret
  | block (type : BlockType) (body : List Instr)
  | loop (type : BlockType) (body : List Instr)
  | ifThen (type : BlockType) (body : List Instr)
  | ifElse (type : BlockType) (yes no : List Instr)
  | br (depth : Nat)
  | brIf (depth : Nat)
  | brTable (targets : List Nat) (default : Nat)
  | call (func : Nat)
  | localGet (slot : Nat)
  | localSet (slot : Nat)
  | localTee (slot : Nat)
  | const32 (value : Int32)
  | const64 (value : Int64)
  | constSingle (value : Single)
  | constDouble (value : Double)
  | load (op : LoadOp) (offset : Nat)
  | store (op : StoreOp) (offset : Nat)
  | numeric (op : Numeric)
  | mark (pos : Position)
  deriving Repr

def littleEndian : (count : Nat) → Nat → List UInt8
  | 0, _ => []
  | count + 1, n => n.toUInt8 :: littleEndian count (n / 256)

/-- An opcode with the result annotation of a structured instruction. -/
def structuredHead (opcode : UInt8) (type : BlockType) : List UInt8 :=
  opcode :: Leb128.signed type.code

def indexed (opcode : UInt8) (index : Nat) : List UInt8 :=
  opcode :: Leb128.unsigned index

def memoryAccess (opcode : UInt8) (alignment offset : Nat) : List UInt8 :=
  opcode :: (Leb128.unsigned alignment ++ Leb128.unsigned offset)

/-- The bytes of a sequence with its length in front. -/
def counted (items : List (List UInt8)) : List UInt8 :=
  Leb128.unsigned items.length ++ items.flatten

/-- A stretch of code bytes or a source mark between them. -/
inductive Piece
  | bytes (chunk : List UInt8)
  | mark (pos : Position)
  deriving DecidableEq, Repr

namespace Instr

def elseByte : UInt8 := 0x05

def endByte : UInt8 := 0x0B

mutual

/-- The code of an instruction, with the marks in their places. -/
def pieces : Instr → List Piece
  | unreachable => [.bytes [0x00]]
  | nop => [.bytes [0x01]]
  | drop => [.bytes [0x1A]]
  | ret => [.bytes [0x0F]]
  | block type body => .bytes (structuredHead 0x02 type) :: (piecesList body ++ [.bytes [endByte]])
  | loop type body => .bytes (structuredHead 0x03 type) :: (piecesList body ++ [.bytes [endByte]])
  | ifThen type body => .bytes (structuredHead 0x04 type) :: (piecesList body ++ [.bytes [endByte]])
  | ifElse type yes no =>
    .bytes (structuredHead 0x04 type) ::
      (piecesList yes ++ .bytes [elseByte] :: (piecesList no ++ [.bytes [endByte]]))
  | br depth => [.bytes (indexed 0x0C depth)]
  | brIf depth => [.bytes (indexed 0x0D depth)]
  | brTable targets default =>
    [.bytes (0x0E :: (counted (targets.map Leb128.unsigned) ++ Leb128.unsigned default))]
  | call func => [.bytes (indexed 0x10 func)]
  | localGet slot => [.bytes (indexed 0x20 slot)]
  | localSet slot => [.bytes (indexed 0x21 slot)]
  | localTee slot => [.bytes (indexed 0x22 slot)]
  | const32 value => [.bytes (0x41 :: Leb128.signed value.toInt)]
  | const64 value => [.bytes (0x42 :: Leb128.signed value.toInt)]
  | constSingle value => [.bytes (0x43 :: littleEndian 4 value.bits.toNat)]
  | constDouble value => [.bytes (0x44 :: littleEndian 8 value.bits.toNat)]
  | load op offset => [.bytes (memoryAccess op.opcode op.alignment offset)]
  | store op offset => [.bytes (memoryAccess op.opcode op.alignment offset)]
  | numeric op => [.bytes [op.opcode]]
  | mark pos => [.mark pos]

def piecesList : List Instr → List Piece
  | [] => []
  | instr :: rest => pieces instr ++ piecesList rest

end

end Instr

namespace Piece

def code : Piece → List UInt8
  | bytes chunk => chunk
  | mark _ => []

/-- The marks of a code with their offsets. A mark without a line is left out, and so is one that
repeats the mark before it at the same offset. -/
def marksFrom (offset : Nat) (last : Option (Nat × Position)) : List Piece → List (Nat × Position)
  | [] => []
  | bytes chunk :: rest => marksFrom (offset + chunk.length) last rest
  | mark pos :: rest =>
    if pos.line = 0 ∨ last = some (offset, pos) then marksFrom offset last rest
    else (offset, pos) :: marksFrom offset (some (offset, pos)) rest

def marks (pieces : List Piece) : List (Nat × Position) :=
  marksFrom 0 none pieces

end Piece

namespace Instr

def encode (code : List Instr) : List UInt8 :=
  (piecesList code).flatMap Piece.code

/-- The source marks of a sequence of instructions, by offset. -/
def marks (code : List Instr) : List (Nat × Position) :=
  Piece.marks (piecesList code)

end Instr

end TreeWasm.Wasm
