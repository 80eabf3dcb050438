import Mathlib.Algebra.Group.Int.Defs
import Mathlib.Algebra.Group.Nat.Defs
import TreeWasm.Wasm.Instr

/-! # Values, memory and calls

Operand stacks hold typed values. Integers are words; floating-point numbers are kept as their
bits, and what the floating-point instructions compute is left to a `FloatUnit`, of which only the
result types and the absence of traps are known.

A running function can change its slots, the memory of the module, and the record of the calls it has
made. Called functions are a `World`: they may answer anything of the right types, depending on memory
and on all calls before.
-/

namespace TreeWasm.Wasm

inductive Value
  | i32 (word : BitVec 32)
  | i64 (word : BitVec 64)
  | f32 (bits : BitVec 32)
  | f64 (bits : BitVec 64)
  deriving DecidableEq, Repr, Inhabited

namespace Value

def type : Value → ValType
  | i32 _ => .i32
  | i64 _ => .i64
  | f32 _ => .f32
  | f64 _ => .f64

/-- A word of some width as a value. -/
def word : (w : Width) → BitVec w.bits → Value
  | .w32, x => i32 x
  | .w64, x => i64 x

theorem type_word {w : Width} {x : BitVec w.bits} : (word w x).type = w.int := by
  cases w <;> rfl

theorem exists_word {v : Value} {w : Width} (h : v.type = w.int) : ∃ x, v = word w x := by
  cases w <;> cases v <;> first | exact ⟨_, rfl⟩ | cases h

/-- Truth values are the words 1 and 0. -/
def ofBool (b : Bool) : Value := .i32 (if b then 1 else 0)

/-- The zero of a value type. -/
def zero : ValType → Value
  | .i64 => .i64 0
  | .f32 => .f32 0
  | .f64 => .f64 0
  | _ => .i32 0

end Value

/-- How a computation on values ends. Code that passes validation is never stuck. -/
inductive Attempt (α : Type)
  | value (a : α)
  | trap
  | stuck
  deriving DecidableEq, Repr

namespace Attempt

variable {α β : Type}

def bind (x : Attempt α) (f : α → Attempt β) : Attempt β :=
  match x with
  | value a => f a
  | trap => trap
  | stuck => stuck

def map (f : α → β) (x : Attempt α) : Attempt β := x.bind (fun a => value (f a))

def ofExcept : Except Trap α → Attempt α
  | .ok a => value a
  | .error _ => trap

@[simp]
theorem bind_value (a : α) (f : α → Attempt β) : (value a).bind f = f a := rfl

@[simp]
theorem map_value (f : α → β) (a : α) : (value a).map f = value (f a) := rfl

@[simp]
theorem ofExcept_ok (a : α) : ofExcept (.ok a : Except Trap α) = value a := rfl

theorem bind_eq_value {x : Attempt α} {f : α → Attempt β} {b : β} (h : x.bind f = value b) :
    ∃ a, x = value a ∧ f a = value b := by
  cases x with
  | value a => exact ⟨a, rfl, h⟩
  | trap => cases h
  | stuck => cases h

end Attempt

namespace Numeric

/-- The types of the operands, the first one lowest on the stack. -/
def params : Numeric → List ValType
  | isZero w => [w.int]
  | intCompare w _ | int w _ => [w.int, w.int]
  | floatCompare w _ | float w _ => [w.float, w.float]
  | floatNegate w => [w.float]
  | wrap => [.i64]
  | truncate _ source _ => [source.float]
  | extend _ | extend8 | extend16 => [.i32]
  | convert _ source _ => [source.int]
  | demote => [.f64]
  | promote => [.f32]

def result : Numeric → ValType
  | isZero _ | intCompare _ _ | floatCompare _ _ | wrap | extend8 | extend16 => .i32
  | int w _ => w.int
  | float w _ | floatNegate w => w.float
  | truncate target _ _ => target.int
  | extend _ => .i64
  | convert target _ _ => target.float
  | demote => .f32
  | promote => .f64

/-- Whether an instruction computes with floating-point numbers. -/
def isFloat : Numeric → Bool
  | floatCompare .. | float .. | floatNegate _ | truncate .. | convert .. | demote | promote => true
  | _ => false

/-- Whether an instruction turns a floating-point number into an integer, which may not exist. -/
def truncates : Numeric → Bool
  | truncate .. => true
  | _ => false

end Numeric

/-- What the floating-point instructions compute; `none` is a trap. -/
structure FloatUnit where
  eval : Numeric → List Value → Option Value
  typed : ∀ op args v, eval op args = some v → v.type = op.result
  total : ∀ op args, op.truncates = false → (eval op args).isSome

/-- Every result is zero. -/
instance : Inhabited FloatUnit where
  default :=
    { eval := fun op _ => some (.zero op.result)
      typed := by
        rintro op args v ⟨⟩
        cases op with
        | int w | float w | floatNegate w | truncate w | convert w => cases w <;> rfl
        | _ => rfl
      total := fun _ _ _ => rfl }

namespace Numeric

/-- The result of an instruction on operands of the right number and types. -/
@[simp] def apply (floats : FloatUnit) : Numeric → List Value → Attempt Value
  | isZero .w32, [.i32 x] => .value (.ofBool (x == 0))
  | isZero .w64, [.i64 x] => .value (.ofBool (x == 0))
  | intCompare .w32 rel, [.i32 x, .i32 y] => .value (.ofBool (rel.eval x y))
  | intCompare .w64 rel, [.i64 x, .i64 y] => .value (.ofBool (rel.eval x y))
  | int .w32 op, [.i32 x, .i32 y] => (Attempt.ofExcept (op.eval x y)).map .i32
  | int .w64 op, [.i64 x, .i64 y] => (Attempt.ofExcept (op.eval x y)).map .i64
  | wrap, [.i64 x] => .value (.i32 (x.setWidth 32))
  | extend .signed, [.i32 x] => .value (.i64 (x.signExtend 64))
  | extend .unsigned, [.i32 x] => .value (.i64 (x.setWidth 64))
  | extend8, [.i32 x] => .value (.i32 ((x.setWidth 8).signExtend 32))
  | extend16, [.i32 x] => .value (.i32 ((x.setWidth 16).signExtend 32))
  | op, args =>
    if op.isFloat ∧ args.map Value.type = op.params then
      (floats.eval op args).elim .trap .value
    else .stuck

variable {floats : FloatUnit} {w : Width}

theorem apply_int (op : IntOp) (x y : BitVec w.bits) :
    (int w op).apply floats [.word w x, .word w y] = (Attempt.ofExcept (op.eval x y)).map (.word w) := by
  cases w <;> rfl

theorem apply_intCompare {rel : IntRelation} {x y : BitVec w.bits} :
    (intCompare w rel).apply floats [.word w x, .word w y] = .value (.ofBool (rel.eval x y)) := by
  cases w <;> rfl

end Numeric

/-! ## Linear memory, local slots and calls -/

/-- Linear memory: the bytes below its size, which 32-bit addresses can reach. -/
structure Memory where
  size : Nat
  bytes : Nat → UInt8
  size_le : size ≤ 2 ^ 32

instance : Inhabited Memory := ⟨0, fun _ => 0, Nat.zero_le _⟩

/-- The number of bytes that a value type takes in memory. -/
def ValType.width : ValType → Nat
  | .i64 | .f64 => 8
  | _ => 4

namespace LoadOp

def width : LoadOp → Nat
  | whole type => type.width
  | byte _ => 1
  | half _ => 2

/-- The value that a read makes of the bytes it finds, read as one number. -/
def decode : LoadOp → Nat → Value
  | whole .i64, n => .i64 (BitVec.ofNat 64 n)
  | whole .f32, n => .f32 (BitVec.ofNat 32 n)
  | whole .f64, n => .f64 (BitVec.ofNat 64 n)
  | whole _, n => .i32 (BitVec.ofNat 32 n)
  | byte .signed, n => .i32 ((BitVec.ofNat 8 n).signExtend 32)
  | byte .unsigned, n => .i32 ((BitVec.ofNat 8 n).setWidth 32)
  | half .signed, n => .i32 ((BitVec.ofNat 16 n).signExtend 32)
  | half .unsigned, n => .i32 ((BitVec.ofNat 16 n).setWidth 32)

end LoadOp

namespace StoreOp

def width : StoreOp → Nat
  | whole type => type.width
  | byte => 1
  | half => 2

/-- The number whose low bytes a write leaves in memory; `none` for a value of another type. -/
def encode? : StoreOp → Value → Option Nat
  | whole .i64, .i64 x => some x.toNat
  | whole .f32, .f32 x => some x.toNat
  | whole .f64, .f64 x => some x.toNat
  | whole .i32, .i32 x => some x.toNat
  | byte, .i32 x => some x.toNat
  | half, .i32 x => some x.toNat
  | _, _ => none

end StoreOp

namespace Memory

/-- The number that a row of bytes spells, lowest byte first. -/
def number (m : Memory) (start : Nat) : (count : Nat) → Nat
  | 0 => 0
  | count + 1 => (m.bytes start).toNat + 256 * m.number (start + 1) count

/-- Whether an access lies inside memory. -/
def inBounds (m : Memory) (address : Int) (width : Nat) : Bool := 0 ≤ address ∧ address + width ≤ m.size

def load (m : Memory) (op : LoadOp) (address : Int) : Attempt Value :=
  if m.inBounds address op.width then .value (op.decode (m.number address.toNat op.width))
  else .trap

/-- Memory after the low bytes of a number are written at an address. -/
def write (m : Memory) (start width n : Nat) : Memory where
  size := m.size
  bytes := fun i =>
    if start ≤ i ∧ i < start + width then (n / 256 ^ (i - start)).toUInt8 else m.bytes i
  size_le := m.size_le

def store (m : Memory) (op : StoreOp) (address : Int) (v : Value) : Attempt Memory :=
  match op.encode? v with
  | none => .stuck
  | some n => if m.inBounds address op.width then .value (m.write address.toNat op.width n) else .trap

end Memory

/-- One call: the function and its arguments. -/
structure Event where
  func : Nat
  args : List Value
  deriving DecidableEq, Repr

/-- What a function body reads and changes. -/
structure Store where
  locals : Nat → Value
  memory : Memory
  /-- The calls made so far, in order. -/
  trace : List Event
  deriving Inhabited

namespace Store

/-- The store with one slot changed. -/
def setLocal (s : Store) (slot : Nat) (v : Value) : Store :=
  { s with locals := fun i => if i = slot then v else s.locals i }

/-- The store after values were put into slots, the last one first. -/
def setLocals (s : Store) : List Nat → List Value → Store
  | slot :: slots, v :: values => (s.setLocals slots values).setLocal slot v
  | _, _ => s

end Store

/-- The world around a function: what its calls answer, and the floating-point unit. A call sees
the calls before it and memory, and gives results and new memory, or traps. -/
structure World where
  floats : FloatUnit
  signature : Nat → Option FuncType
  call : List Event → Memory → Event → Option (List Value × Memory)
  call_typed : ∀ trace m func args ft results m', signature func = some ft →
    call trace m ⟨func, args⟩ = some (results, m') → results.map Value.type = ft.results

/-- A world without functions. -/
instance : Inhabited World where
  default :=
    { floats := default
      signature := fun _ => none
      call := fun _ _ _ => none
      call_typed := by
        intro _ _ _ _ _ _ _ hfunc
        cases hfunc }

end TreeWasm.Wasm
