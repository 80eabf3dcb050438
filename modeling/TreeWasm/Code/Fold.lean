import TreeWasm.Code.Access

/-! # Arithmetic on constants

What an operation gives when its operands are constants. Integers use the word operations of the
instructions, so that folding an expression and running its code agree; a division that would trap
is a fault of the program.
-/

namespace TreeWasm

open Wasm

namespace Layout

def sign (l : Layout) : Sign :=
  if l.isSigned then .signed else .unsigned

/-- The number that a constant of this layout stands for. -/
def integer (l : Layout) (v : Int64) : Int64 :=
  if l.size = 4 ∧ !l.isSigned then v &&& 0xFFFFFFFF else v

/-- The numbers, from the first up to but without the second, that can be truncated to a word of
this layout's slot. -/
def truncationRange (l : Layout) : Float × Float :=
  match decide (l.size = 8), l.isSigned with
  | true, true => (-9223372036854775808.0, 9223372036854775808.0)
  | true, false => (0.0, 18446744073709551616.0)
  | false, true => (-2147483648.0, 2147483648.0)
  | false, false => (0.0, 4294967296.0)

/-- An integer of this layout as a float of another, rounded once. -/
def toFloat (source target : Layout) (v : Int64) : Double :=
  let wide := source.size = 8 ∧ !source.isSigned
  if target.size = 4 then
    let single := if wide then v.toUInt64.toFloat32 else v.toFloat32
    Single.widen ⟨single.toBits⟩
  else Double.ofFloat (if wide then v.toUInt64.toFloat else v.toFloat)

end Layout

namespace Node

def ofBool (info : Info) (b : Bool) : Node :=
  int32 info (if b then 1 else 0)

def trapFault : Trap → LoweringFault
  | .divisionByZero => .divisionByZero
  | .divisionOverflow => .divisionOverflow

def foldWords (l : Layout) (op : IntOp) (a b : Int64) : Except Trap Int64 :=
  if l.size = 8 then (op.eval a.toBitVec b.toBitVec).map Int64.ofBitVec
  else (op.eval a.toInt32.toBitVec b.toInt32.toBitVec).map (fun r => (Int32.ofBitVec r).toInt64)

def foldFloats (op : Operator) (a b : Double) : Option Double :=
  match op with
  | .arith .add => some (.ofFloat (a.value + b.value))
  | .arith .sub => some (.ofFloat (a.value - b.value))
  | .arith .mul => some (.ofFloat (a.value * b.value))
  | .arith .div => some (.ofFloat (a.value / b.value))
  | _ => none

def foldIntegers (info : Info) (op : Operator) (a b : Int64) : Except Failure Node :=
  match op with
  | .arith arith =>
    match foldWords info.layout (.ofArith info.layout.sign arith) a b with
    | .ok v => .ok (constant info ⟨info.layout.wrap v, .zero⟩)
    | .error trap => .error (.lowering info.pos (trapFault trap))
  | _ => .error (.code info.pos (.cannotFold op.text))

/-- Whether `x op c` is `x`, for an integer constant on the right. -/
def isRightNeutral (op : Operator) (c : Int64) : Bool :=
  match op with
  | .arith .add | .arith .sub => c = 0
  | .arith .mul | .arith .div => c = 1
  | _ => false

/-- Whether `c op y` is `y`, for an integer constant on the left. -/
def isLeftNeutral (op : Operator) (c : Int64) : Bool :=
  match op with
  | .arith .add => c = 0
  | .arith .mul => c = 1
  | _ => false

def foldBinary (info : Info) (op : Operator) (x y : Node) : Except Failure (Option Node) :=
  if info.layout.isFloat then
    match x.constant?, y.constant? with
    | some a, some b => .ok ((foldFloats op a.float b.float).map (float info))
    | _, _ => .ok none
  else
    match x.constant?, y.constant? with
    | some a, some b => (foldIntegers info op a.int b.int).map some
    | none, some b => .ok (if isRightNeutral op b.int then some x else none)
    | some a, none => .ok (if isLeftNeutral op a.int then some y else none)
    | none, none => .ok none

def foldUnary (info : Info) (op : Operator) (x : Node) : Option Node :=
  x.constant?.bind (fun c =>
    match op with
    | .arith .sub =>
      if info.layout.isFloat then some (float info c.float.negate)
      else some (constant info ⟨info.layout.wrap (-c.int), .zero⟩)
    | .not => some (ofBool info (c.int = 0))
    | .complement => some (constant info ⟨info.layout.wrap (~~~c.int), .zero⟩)
    | _ => none)

/-- How two constants of a layout compare; `none` if one is a NaN. -/
def order (l : Layout) (a b : Constant) : Option Ordering :=
  if l.isFloat then
    if a.float.isNaN || b.float.isNaN then none else some (a.float.order b.float)
  else if l.isSigned then some (Ord.compare a.int b.int)
  else if l.size = 8 then some (Ord.compare a.int.toUInt64 b.int.toUInt64)
  else some (Ord.compare a.int.toUInt64.toUInt32 b.int.toUInt64.toUInt32)

/-- The truth value of a comparison of constants. Of relations, a NaN has only being unequal. -/
def foldCompare (info : Info) (op : Operator) (x y : Node) : Except Failure (Option Node) :=
  match x.constant?, y.constant? with
  | some a, some b =>
    match order x.layout a b with
    | none => .ok (some (ofBool info (op = .relation .ne)))
    | some o =>
      match op with
      | .relation rel => .ok (some (ofBool info (rel.holds o)))
      | _ => .error (.code info.pos (.cannotFoldComparison op.text))
  | _, _ => .ok none

/-- The constant that a conversion of a constant gives. A float out of range is left to the
program, which then traps. -/
def foldConvert (info : Info) (x : Node) : Option Node :=
  x.constant?.bind (fun c =>
    let source := x.layout
    let target := info.layout
    if target.isBool then
      some (ofBool info (if source.isFloat then c.float.value != 0.0 else c.int != 0))
    else if source.isFloat && target.isFloat then some (float info c.float)
    else if target.isFloat then
      some (float info (source.toFloat target (source.integer c.int)))
    else if source.isFloat then
      let whole := c.float.truncate
      let (low, high) := target.truncationRange
      if c.float.isNaN || whole < low || high ≤ whole then none
      else if target.size = 8 ∧ !target.isSigned then
        some (const64 info whole.toUInt64.toInt64)
      else some (constant info ⟨target.wrap whole.toInt64, .zero⟩)
    else some (constant info ⟨target.wrap (source.integer c.int), .zero⟩))

end Node

end TreeWasm
