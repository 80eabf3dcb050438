import TreeWasm.Typed.Type
import TreeWasm.Wasm.Instr

/-! # Scalars

The values that take one slot: their slot type, their size in memory, the instructions that
compute with them, and the canonical form of their words. Kinds narrower than a slot are kept
sign-extended or zero-extended in it, and are narrowed again after arithmetic.
-/

namespace TreeWasm

open Wasm

inductive Scalar
  | bool
  | i8 | u8 | i16 | u16 | i32 | u32 | i64 | u64
  | f32 | f64
  | pointer
  deriving DecidableEq, Repr, Inhabited

/-- A constant of some scalar kind: integers as two's-complement bits, floats as numbers. -/
structure Constant where
  int : Int64
  float : Double
  deriving DecidableEq, Repr

namespace Scalar

def ofBuiltin? : Builtin → Option Scalar
  | .bool => some bool
  | .i8 => some i8
  | .u8 => some u8
  | .i16 => some i16
  | .u16 => some u16
  | .i32 => some i32
  | .u32 => some u32
  | .i64 => some i64
  | .u64 => some u64
  | .f32 => some f32
  | .f64 => some f64
  | .error | .unknown | .void | .memory => none

def slot : Scalar → ValType
  | i64 | u64 => .i64
  | f32 => .f32
  | f64 => .f64
  | _ => .i32

def size : Scalar → Nat
  | bool | i8 | u8 => 1
  | i16 | u16 => 2
  | i32 | u32 | f32 | pointer => 4
  | i64 | u64 | f64 => 8

def sign : Scalar → Sign
  | i8 | i16 | i32 | i64 => .signed
  | _ => .unsigned

/-- The instruction for an operator. Booleans have only the bitwise ones, and pointers only
addition and subtraction. -/
def arith? (s : Scalar) (op : Arith) : Option Numeric :=
  match s with
  | bool =>
    match op with
    | .and | .or | .xor => some (.int .w32 (.ofArith .unsigned op))
    | _ => none
  | pointer =>
    match op with
    | .add | .sub => some (.int .w32 (.ofArith .unsigned op))
    | _ => none
  | i64 | u64 => some (.int .w64 (.ofArith s.sign op))
  | f32 => (FloatOp.ofArith? op).map (.float .w32)
  | f64 => (FloatOp.ofArith? op).map (.float .w64)
  | _ => some (.int .w32 (.ofArith s.sign op))

def compare (s : Scalar) (rel : Relation) : Numeric :=
  match s with
  | i64 | u64 => .intCompare .w64 (.ofRelation s.sign rel)
  | f32 => .floatCompare .w32 rel
  | f64 => .floatCompare .w64 rel
  | _ => .intCompare .w32 (.ofRelation s.sign rel)

/-- Whether words must be narrowed after they are computed in a whole slot. -/
def needsClamp : Scalar → Bool
  | i8 | u8 | i16 | u16 => true
  | _ => false

/-- Narrows the `i32` on top of the stack: unsigned kinds by a mask, signed ones by the
sign-extension instructions or, without these, by a pair of shifts. -/
def clamp (signExt : Bool) : Scalar → List Instr
  | u8 => [.const32 255, .numeric (.int .w32 .and)]
  | u16 => [.const32 65535, .numeric (.int .w32 .and)]
  | i8 => if signExt then [.numeric .extend8] else shifts 24
  | i16 => if signExt then [.numeric .extend16] else shifts 16
  | _ => []
where
  shifts (amount : Int32) : List Instr :=
    [.const32 amount, .numeric (.int .w32 .shl), .const32 amount,
      .numeric (.int .w32 (.shr .signed))]

/-- The canonical form of an integer: sign-extended for signed kinds, zero-extended for unsigned
ones, 0 or 1 for booleans. Kinds of 32 bits keep their bits sign-extended. -/
def wrap (s : Scalar) (v : Int64) : Int64 :=
  match s with
  | bool => if v = 0 then 0 else 1
  | i8 => v.toInt8.toInt64
  | u8 => v &&& 0xFF
  | i16 => v.toInt16.toInt64
  | u16 => v &&& 0xFFFF
  | i64 | u64 => v
  | i32 | u32 | f32 | f64 | pointer => v.toInt32.toInt64

def bytes (s : Scalar) (c : Constant) : List UInt8 :=
  match s with
  | f32 => littleEndian 4 c.float.narrow.bits.toNat
  | f64 => littleEndian 8 c.float.bits.toNat
  | _ => littleEndian s.size c.int.toUInt64.toNat

def loadOp (s : Scalar) : LoadOp :=
  match s.size with
  | 1 => .byte s.sign
  | 2 => .half s.sign
  | _ => .whole s.slot

def storeOp (s : Scalar) : StoreOp :=
  match s.size with
  | 1 => .byte
  | 2 => .half
  | _ => .whole s.slot

end Scalar

/-- The scalar kind of a type, if its values take one slot. -/
def Ty.scalar? (t : Ty) : Option Scalar :=
  match t.unwrap with
  | builtin b => Scalar.ofBuiltin? b
  | pointer _ _ => some .pointer
  | _ => none

end TreeWasm
