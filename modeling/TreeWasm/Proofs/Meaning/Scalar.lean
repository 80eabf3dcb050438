import TreeWasm.Code.Node
import TreeWasm.Proofs.Machine.Run

/-! # What operations on values mean

The results of operators and conversions by the layouts of their operands. Integers are computed in
whole slots and then narrowed, so that a kind of fewer bits than its slot is left sign-extended or
zero-extended; such words are the canonical ones of their kind.
-/

namespace TreeWasm

open Wasm

namespace Scalar

/-- The word that stands for the low bits of another one in a kind narrower than its slot. -/
def narrowWord (kind : Scalar) (x : BitVec 32) : BitVec 32 :=
  match kind with
  | u8 => (x.setWidth 8).setWidth 32
  | u16 => (x.setWidth 16).setWidth 32
  | i8 => (x.setWidth 8).signExtend 32
  | i16 => (x.setWidth 16).signExtend 32
  | _ => x

/-- A value computed in a whole slot, narrowed to a kind. -/
def narrow (kind : Scalar) (v : Value) : Attempt Value :=
  if kind.needsClamp then
    match v with
    | .i32 x => .value (.i32 (kind.narrowWord x))
    | _ => .stuck
  else .value v

/-- Whether a value is one that a slot of this kind should hold. -/
def isCanonical (kind : Scalar) : Value → Bool
  | .i32 x =>
    let v := (Int32.ofBitVec x).toInt64
    kind.slot = .i32 ∧ kind.wrap v = v
  | .i64 x =>
    let v := Int64.ofBitVec x
    kind.slot = .i64 ∧ kind.wrap v = v
  | .f32 _ => kind.slot = .f32
  | .f64 _ => kind.slot = .f64

/-- Whether values are canonical for kinds, one by one. -/
@[grind =] def allCanonical : List Scalar → List Value → Bool
  | [], [] => true
  | kind :: kinds, v :: values => kind.isCanonical v && allCanonical kinds values
  | _, _ => false

/-- The truth value of a number: whether it differs from zero. -/
@[grind =] def truthOf (floats : FloatUnit) (kind : Scalar) (v : Value) : Attempt Value :=
  if kind = bool then .value v
  else
    match kind.slot, v with
    | .i32, .i32 x => .value (.ofBool (x != 0))
    | .i64, .i64 x => .value (.ofBool (x != 0))
    | .f32, v => (Numeric.floatCompare .w32 .ne).apply floats [v, .f32 0]
    | .f64, v => (Numeric.floatCompare .w64 .ne).apply floats [v, .f64 0]
    | _, _ => .stuck

/-- A value of one kind as a value of another. -/
@[grind =] def convert (floats : FloatUnit) (source target : Scalar) (v : Value) : Attempt Value :=
  if target = bool then source.truthOf floats v
  else
    match source.slot, target.slot with
    | .i32, .i32 => target.narrow v
    | .i32, .i64 => (Numeric.extend source.sign).apply floats [v]
    | .i32, .f32 => (Numeric.convert .w32 .w32 source.sign).apply floats [v]
    | .i32, .f64 => (Numeric.convert .w64 .w32 source.sign).apply floats [v]
    | .i64, .i32 => (Numeric.wrap.apply floats [v]).bind target.narrow
    | .i64, .f32 => (Numeric.convert .w32 .w64 source.sign).apply floats [v]
    | .i64, .f64 => (Numeric.convert .w64 .w64 source.sign).apply floats [v]
    | .f32, .i32 => ((Numeric.truncate .w32 .w32 target.sign).apply floats [v]).bind target.narrow
    | .f32, .i64 => (Numeric.truncate .w64 .w32 target.sign).apply floats [v]
    | .f32, .f64 => Numeric.promote.apply floats [v]
    | .f64, .i32 => ((Numeric.truncate .w32 .w64 target.sign).apply floats [v]).bind target.narrow
    | .f64, .i64 => (Numeric.truncate .w64 .w64 target.sign).apply floats [v]
    | .f64, .f32 => Numeric.demote.apply floats [v]
    | _, _ => .value v

end Scalar

namespace Layout

/-- The kinds of the slots of a layout; a union has none. -/
def kinds (l : Layout) : List Scalar :=
  match l.leaves with
  | .ok leaves => leaves.map Leaf.kind
  | .error _ => []

def narrow (l : Layout) (v : Value) : Attempt Value := l.scalar?.elim (.value v) (fun kind => kind.narrow v)

/-- The result of an operator on two operands. -/
def binaryValue (floats : FloatUnit) (l : Layout) (op : Operator) (operands : List Value) :
    Attempt Value :=
  match l.arith op with
  | .ok instr => (instr.apply floats operands).bind l.narrow
  | .error _ => .stuck

/-- The result of a relation on two operands of the given layout. -/
def compareValue (floats : FloatUnit) (source : Layout) (op : Operator) (operands : List Value) :
    Attempt Value :=
  match source.compare op with
  | .ok instr => instr.apply floats operands
  | .error _ => .stuck

/-- The result of an operator on one operand of the layout `source`. -/
@[grind =] def unaryValue (floats : FloatUnit) (l source : Layout) (op : Operator) :
    List Value → Attempt Value
  | [v] =>
    match op with
    | .arith .sub =>
      match l.slot with
      | .f32 => (Numeric.floatNegate .w32).apply floats [v]
      | .f64 => (Numeric.floatNegate .w64).apply floats [v]
      | .i64 => (Numeric.int .w64 .sub).apply floats [.i64 0, v]
      | _ => ((Numeric.int .w32 .sub).apply floats [.i32 0, v]).bind l.narrow
    | .not =>
      (Numeric.isZero (if source.slot = .i64 then .w64 else .w32)).apply floats [v]
    | .complement =>
      if l.slot = .i64 then (Numeric.int .w64 .xor).apply floats [v, .i64 (-1)]
      else ((Numeric.int .w32 .xor).apply floats [v, .i32 (-1)]).bind l.narrow
    | _ => .stuck
  | _ => .stuck

/-- A value of layout `source` as a value of layout `target`. -/
def convertValue (floats : FloatUnit) (source target : Layout) : List Value → Attempt Value
  | [v] =>
    match source.scalar?, target.scalar? with
    | some a, some b => a.convert floats b v
    | _, _ => .stuck
  | _ => .stuck

end Layout

end TreeWasm
