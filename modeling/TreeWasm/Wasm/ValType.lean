import TreeWasm.Operator

/-! # Value types and signatures

The four value types of WebAssembly, function signatures over them and the result annotation of
structured instructions.
-/

namespace TreeWasm.Wasm

/-- A value type. `invalid` stands for a byte that names none. -/
inductive ValType
  | i32 | i64 | f32 | f64 | invalid
  deriving DecidableEq, Repr

namespace ValType

def text : ValType → String
  | i32 => "i32"
  | i64 => "i64"
  | f32 => "f32"
  | f64 => "f64"
  | invalid => "?"

def byte : ValType → UInt8
  | i32 => 0x7F
  | i64 => 0x7E
  | f32 => 0x7D
  | f64 => 0x7C
  | invalid => 0

def ofText (text : String) : ValType :=
  ([i32, i64, f32, f64].find? (fun v => v.text == text)).getD invalid

end ValType

structure FuncType where
  params : List ValType
  results : List ValType
  deriving DecidableEq, Repr, Inhabited

def FuncType.text (ft : FuncType) : String :=
  let list := fun (vs : List ValType) => "[" ++ " ".intercalate (vs.map ValType.text) ++ "]"
  s!"{list ft.params} -> {list ft.results}"

/-- What a structured instruction leaves on the stack. -/
inductive BlockType
  | empty
  | value (type : ValType)
  | signature (index : Nat)
  deriving DecidableEq, Repr

/-- The signed immediate: negative for an empty or single result, an index otherwise. -/
def BlockType.code : BlockType → Int
  | empty => -0x40
  | value type => type.byte.toNat - 0x80
  | signature index => index

end TreeWasm.Wasm
