import TreeWasm.Number.Decimal
import TreeWasm.Number.Layout
import TreeWasm.Text.Quoted
import TreeWasm.Wasm.ValType

/-! # Values of calls

Arguments and results of a function as text. A value is held in 64 bits: a narrower one in the low
half, with zeros above.
-/

namespace TreeWasm

open Number

inductive ValueKind
  | i32 | i64 | f32 | f64
  /-- A type whose values cannot be written down. -/
  | other (name : String)
  deriving DecidableEq, Repr

inductive ValueFault
  | integer (text : String) (why : LiteralFault)
  | float (text : String) (why : LiteralFault)
  | unsupported (type : String)
  deriving DecidableEq, Repr

namespace ValueFault

def reason : LiteralFault → String
  | .invalid => "invalid syntax"
  | .outOfRange => "value out of range"

def message : ValueFault → String
  | integer text why => s!"strconv.ParseInt: parsing {Text.quote text}: {reason why}"
  | float text why => s!"strconv.ParseFloat: parsing {Text.quote text}: {reason why}"
  | unsupported type => s!"unsupported parameter type {type}"

end ValueFault

namespace ValueKind

def ofName (name : String) : ValueKind :=
  match name with
  | "i32" => i32
  | "i64" => i64
  | "f32" => f32
  | "f64" => f64
  | _ => other name

def ofByte (byte : UInt8) : ValueKind :=
  match byte.toNat with
  | 0x7F => i32
  | 0x7E => i64
  | 0x7D => f32
  | 0x7C => f64
  | 0x7B => other "v128"
  | 0x70 => other "funcref"
  | 0x6F => other "externref"
  | _ => other "unknown"

/-- Reads an integer of some bits with a sign, or else one without that fills all of them. The
fault is that of the first attempt. -/
def readInteger (bits : Nat) (text : String) : Except ValueFault UInt64 :=
  match readSigned bits text.toList, readUnsigned bits text.toList with
  | .ok value, _ => .ok (UInt64.ofNat (value % (Nat.pow 2 bits : Nat)).toNat)
  | .error _, .ok value => .ok (UInt64.ofNat value)
  | .error why, .error _ => .error (.integer text why)

def read (kind : ValueKind) (text : String) : Except ValueFault UInt64 :=
  match kind with
  | i32 => readInteger 32 text
  | i64 => readInteger 64 text
  | f32 => ((readSingle text.toList).map (fun x => x.bits.toUInt64)).mapError (.float text)
  | f64 => ((readDouble text.toList).map Double.bits).mapError (.float text)
  | other name => .error (.unsupported name)

def render (kind : ValueKind) (value : UInt64) : String :=
  match kind with
  | i32 => toString value.toUInt32.toInt32.toInt
  | i64 => toString value.toInt64.toInt
  | f32 => Single.text .shown ⟨value.toUInt32⟩
  | f64 => Double.text .shown ⟨value⟩
  | other _ => "0x" ++ Text.hex 1 value.toNat

def isNaN (kind : ValueKind) (value : UInt64) : Bool :=
  match kind with
  | f32 => (Single.mk value.toUInt32).isNaN
  | f64 => (Double.mk value).isNaN
  | _ => false

end ValueKind

end TreeWasm
