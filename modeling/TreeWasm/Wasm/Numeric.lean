import TreeWasm.Wasm.ValType

/-! # Numeric instructions

Instructions that take their operands from the stack and need no immediate, with their opcodes,
and what the integer ones compute on words. Constant folding uses the same word operations.
-/

namespace TreeWasm.Wasm

inductive Width
  | w32 | w64
  deriving DecidableEq, Repr

namespace Width

def bits : Width → Nat
  | w32 => 32
  | w64 => 64

def int : Width → ValType
  | w32 => .i32
  | w64 => .i64

def float : Width → ValType
  | w32 => .f32
  | w64 => .f64

end Width

inductive Sign
  | signed | unsigned
  deriving DecidableEq, Repr

/-- The place of an instruction among a signed and an unsigned one, in this order. -/
def Sign.rank : Sign → Nat
  | signed => 0
  | unsigned => 1

/-- Why an instruction stops the program. -/
inductive Trap
  | divisionByZero
  | divisionOverflow
  deriving DecidableEq, Repr

/-- Integer operations; division, remainder and right shift depend on the sign. -/
inductive IntOp
  | add | sub | mul
  | div (s : Sign) | rem (s : Sign)
  | and | or | xor | shl
  | shr (s : Sign)
  deriving DecidableEq, Repr

namespace IntOp

def ofArith (s : Sign) : Arith → IntOp
  | .add => add
  | .sub => sub
  | .mul => mul
  | .div => div s
  | .rem => rem s
  | .and => and
  | .or => or
  | .xor => xor
  | .shl => shl
  | .shr => shr s

def rank : IntOp → Nat
  | add => 0
  | sub => 1
  | mul => 2
  | div s => 3 + s.rank
  | rem s => 5 + s.rank
  | and => 7
  | or => 8
  | xor => 9
  | shl => 10
  | shr s => 11 + s.rank

/-- The result on words of any width. A shift takes its amount modulo the width. A division traps
on a zero divisor, and on the least number by -1, whose quotient has no word. -/
def eval {w : Nat} (op : IntOp) (x y : BitVec w) : Except Trap (BitVec w) :=
  match op with
  | add => .ok (x + y)
  | sub => .ok (x - y)
  | mul => .ok (x * y)
  | div .signed =>
    if y = 0 then .error .divisionByZero
    else if x = BitVec.intMin w ∧ y = BitVec.allOnes w then .error .divisionOverflow
    else .ok (x.sdiv y)
  | div .unsigned => if y = 0 then .error .divisionByZero else .ok (x.udiv y)
  | rem .signed => if y = 0 then .error .divisionByZero else .ok (x.srem y)
  | rem .unsigned => if y = 0 then .error .divisionByZero else .ok (x.umod y)
  | and => .ok (x &&& y)
  | or => .ok (x ||| y)
  | xor => .ok (x ^^^ y)
  | shl => .ok (x <<< (y.toNat % w))
  | shr .signed => .ok (x.sshiftRight (y.toNat % w))
  | shr .unsigned => .ok (x >>> (y.toNat % w))

end IntOp

/-- Integer comparisons; the order depends on the sign. -/
inductive IntRelation
  | eq | ne
  | lt (s : Sign) | gt (s : Sign) | le (s : Sign) | ge (s : Sign)
  deriving DecidableEq, Repr

namespace IntRelation

def ofRelation (s : Sign) : Relation → IntRelation
  | .eq => eq
  | .ne => ne
  | .lt => lt s
  | .gt => gt s
  | .ge => ge s
  | .le => le s

def rank : IntRelation → Nat
  | eq => 0
  | ne => 1
  | lt s => 2 + s.rank
  | gt s => 4 + s.rank
  | le s => 6 + s.rank
  | ge s => 8 + s.rank

/-- How two words compare as numbers of the given sign. -/
def order {w : Nat} (s : Sign) (x y : BitVec w) : Ordering :=
  match s with
  | .signed => compare x.toInt y.toInt
  | .unsigned => compare x.toNat y.toNat

def eval {w : Nat} (rel : IntRelation) (x y : BitVec w) : Bool :=
  match rel with
  | eq => x == y
  | ne => x != y
  | lt s => order s x y == .lt
  | gt s => order s x y == .gt
  | le s => order s x y != .gt
  | ge s => order s x y != .lt

end IntRelation

inductive FloatOp
  | add | sub | mul | div
  deriving DecidableEq, Repr

namespace FloatOp

def ofArith? : Arith → Option FloatOp
  | .add => some add
  | .sub => some sub
  | .mul => some mul
  | .div => some div
  | _ => none

def rank : FloatOp → Nat
  | add => 0
  | sub => 1
  | mul => 2
  | div => 3

end FloatOp

/-- Numeric instructions without an immediate. -/
inductive Numeric
  | isZero (w : Width)
  | intCompare (w : Width) (rel : IntRelation)
  | floatCompare (w : Width) (rel : Relation)
  | int (w : Width) (op : IntOp)
  | float (w : Width) (op : FloatOp)
  | floatNegate (w : Width)
  | wrap
  | truncate (target source : Width) (s : Sign)
  | extend (s : Sign)
  | convert (target source : Width) (s : Sign)
  | demote
  | promote
  | extend8
  | extend16
  deriving DecidableEq, Repr

namespace Numeric

/-- The place among the floating-point comparisons of a width. -/
def floatRank : Relation → Nat
  | .eq => 0
  | .ne => 1
  | .lt => 2
  | .gt => 3
  | .le => 4
  | .ge => 5

def code : Numeric → Nat
  | isZero .w32 => 0x45
  | isZero .w64 => 0x50
  | intCompare .w32 rel => 0x46 + rel.rank
  | intCompare .w64 rel => 0x51 + rel.rank
  | floatCompare .w32 rel => 0x5B + floatRank rel
  | floatCompare .w64 rel => 0x61 + floatRank rel
  | int .w32 op => 0x6A + op.rank
  | int .w64 op => 0x7C + op.rank
  | float .w32 op => 0x92 + op.rank
  | float .w64 op => 0xA0 + op.rank
  | floatNegate .w32 => 0x8C
  | floatNegate .w64 => 0x9A
  | wrap => 0xA7
  | truncate .w32 .w32 s => 0xA8 + s.rank
  | truncate .w32 .w64 s => 0xAA + s.rank
  | extend s => 0xAC + s.rank
  | truncate .w64 .w32 s => 0xAE + s.rank
  | truncate .w64 .w64 s => 0xB0 + s.rank
  | convert .w32 .w32 s => 0xB2 + s.rank
  | convert .w32 .w64 s => 0xB4 + s.rank
  | demote => 0xB6
  | convert .w64 .w32 s => 0xB7 + s.rank
  | convert .w64 .w64 s => 0xB9 + s.rank
  | promote => 0xBB
  | extend8 => 0xC0
  | extend16 => 0xC1

def opcode (op : Numeric) : UInt8 :=
  op.code.toUInt8

end Numeric

end TreeWasm.Wasm
