import TreeWasm.Scope

/-! # Types of programs

Types are terms over builtin types and references to declared aggregates. Two uses of one
spelling are two occurrences: `pointer`, `array` and `function` carry a number that tells one
occurrence from another, since a representation is shared only within an occurrence.

Structs and unions live in a table and are known by their index in it; their fields are found
there, so that a type may refer to itself through a pointer.
-/

namespace TreeWasm

/-- Types without parts. `error` and `unknown` stand for types that could not be found. -/
inductive Builtin
  | error | unknown | void | bool
  | i8 | u8 | i16 | u16 | i32 | u32 | i64 | u64
  | f32 | f64
  | memory
  deriving DecidableEq, Repr

namespace Builtin

def named : List Builtin :=
  [void, bool, i8, u8, i16, u16, i32, u32, i64, u64, f32, f64, memory]

def text : Builtin → String
  | error => "error"
  | unknown => "unknown"
  | void => "void"
  | bool => "bool"
  | i8 => "i8"
  | u8 => "u8"
  | i16 => "i16"
  | u16 => "u16"
  | i32 => "i32"
  | u32 => "u32"
  | i64 => "i64"
  | u64 => "u64"
  | f32 => "f32"
  | f64 => "f64"
  | memory => "memory"

def ofText? (text : String) : Option Builtin :=
  named.find? (fun b => b.text == text)

def isInteger : Builtin → Bool
  | i8 | u8 | i16 | u16 | i32 | u32 | i64 | u64 => true
  | _ => false

def isSigned : Builtin → Bool
  | i8 | i16 | i32 | i64 => true
  | _ => false

def isFloat : Builtin → Bool
  | f32 | f64 => true
  | _ => false

end Builtin

/-- Kinds of types, in the order of their codes. -/
inductive Kind
  | builtin (b : Builtin)
  | pointer | array | struct | union | function | location
  deriving DecidableEq, Repr

namespace Kind

def text : Kind → String
  | builtin b => b.text
  | pointer => "pointer"
  | array => "array"
  | struct => "struct"
  | union => "union"
  | function => "fun"
  | location => "location"

/-- All kinds; the code of a kind is its place here. -/
def all : List Kind :=
  [.builtin .error, .builtin .unknown, .builtin .void, .builtin .bool,
    .builtin .i8, .builtin .u8, .builtin .i16, .builtin .u16, .builtin .i32, .builtin .u32,
    .builtin .i64, .builtin .u64, .builtin .f32, .builtin .f64,
    .pointer, .array, .struct, .union, .function, .location, .builtin .memory]

def nameOf (code : Nat) : String :=
  (all[code]?).elim s!"kind({code})" text

end Kind

inductive Ty
  | absent
  | builtin (b : Builtin)
  | pointer (occurrence : Nat) (elem : Ty)
  | array (occurrence : Nat) (length : Option Int64) (elem : Ty)
  | function (occurrence : Nat) (params : List Ty) (result : Ty)
  | aggregate (id : Nat)
  | location (elem : Ty)
  deriving Repr, Inhabited

namespace Ty

def void : Ty := builtin .void
def bool : Ty := builtin .bool
def i32 : Ty := builtin .i32

def unwrap : Ty → Ty
  | location elem => elem.unwrap
  | other => other

def isAbsent : Ty → Bool
  | absent => true
  | _ => false

def builtin? (t : Ty) : Option Builtin :=
  match t.unwrap with
  | builtin b => some b
  | _ => none

def isInteger (t : Ty) : Bool :=
  t.builtin?.elim false Builtin.isInteger

def isSigned (t : Ty) : Bool :=
  t.builtin?.elim false Builtin.isSigned

def isFloat (t : Ty) : Bool :=
  t.builtin?.elim false Builtin.isFloat

def isNumeric (t : Ty) : Bool :=
  t.isInteger || t.isFloat

def isBuiltin (t : Ty) (b : Builtin) : Bool :=
  t.builtin? == some b

def isPointer (t : Ty) : Bool :=
  match t.unwrap with
  | pointer _ _ => true
  | _ => false

/-- Whether values of the type fit one slot. -/
def isScalar (t : Ty) : Bool :=
  t.isNumeric || t.isBuiltin .bool || t.isPointer

end Ty

/-- A struct or union. An anonymous one has the empty name. -/
structure Aggregate where
  name : String
  union : Bool
  fields : Level Ty
  deriving Repr

/-- The aggregates known so far and the number of the next occurrence. -/
structure TypeTable where
  aggregates : Array Aggregate
  occurrence : Nat
  deriving Repr

namespace TypeTable

def empty : TypeTable := ⟨#[], 0⟩

def get? (table : TypeTable) (id : Nat) : Option Aggregate :=
  table.aggregates[id]?

/-- Adds an aggregate; its fields may be filled in later. -/
def add (table : TypeTable) (aggregate : Aggregate) : TypeTable × Ty :=
  ({ table with aggregates := table.aggregates.push aggregate }, .aggregate table.aggregates.size)

def setFields (table : TypeTable) (id : Nat) (fields : Level Ty) : TypeTable :=
  { table with aggregates := table.aggregates.modify id (fun a => { a with fields := fields }) }

def freshOccurrence (table : TypeTable) : TypeTable × Nat :=
  ({ table with occurrence := table.occurrence + 1 }, table.occurrence)

def pointerTo (table : TypeTable) (elem : Ty) : TypeTable × Ty :=
  let (table, occurrence) := table.freshOccurrence
  (table, .pointer occurrence elem)

def arrayOf (table : TypeTable) (length : Option Int64) (elem : Ty) : TypeTable × Ty :=
  let (table, occurrence) := table.freshOccurrence
  (table, .array occurrence length elem)

/-- A function type; without a result it returns nothing. -/
def functionFrom (table : TypeTable) (params : List Ty) (result : Ty) : TypeTable × Ty :=
  let (table, occurrence) := table.freshOccurrence
  (table, .function occurrence params (if result.isAbsent then .void else result))

def aggregate? (table : TypeTable) (t : Ty) : Option Aggregate :=
  match t.unwrap with
  | .aggregate id => table.get? id
  | _ => none

def field? (table : TypeTable) (t : Ty) (name : String) : Option Ty :=
  (table.aggregate? t).bind (fun aggregate => aggregate.fields.find? name)

def kind (table : TypeTable) : Ty → Kind
  | .absent => .builtin .error
  | .builtin b => .builtin b
  | .pointer _ _ => .pointer
  | .array _ _ _ => .array
  | .function _ _ _ => .function
  | .aggregate id => if (table.get? id).elim false Aggregate.union then .union else .struct
  | .location _ => .location

end TypeTable

/-! ## Spelling -/

mutual

/-- The spelling of a type, when the aggregates' spellings are known. -/
def Ty.textWith (aggregate : Nat → String) : Ty → String
  | .absent => "<nil>"
  | .builtin b => b.text
  | .pointer _ elem => "*" ++ elem.textWith aggregate
  | .array _ (some length) elem => s!"[{length}]" ++ elem.textWith aggregate
  | .array _ none elem => "[]" ++ elem.textWith aggregate
  | .function _ params result =>
    "fun(" ++ ", ".intercalate (Ty.textsWith aggregate params) ++ "): " ++ result.textWith aggregate
  | .aggregate id => aggregate id
  | .location elem => "&" ++ elem.textWith aggregate

def Ty.textsWith (aggregate : Nat → String) : List Ty → List String
  | [] => []
  | t :: rest => t.textWith aggregate :: Ty.textsWith aggregate rest

end

namespace TypeTable

/-- A named aggregate is shown by its name, an anonymous one by its fields. Fields of anonymous
aggregates inside one another are shown to the given depth. -/
def aggregateText (table : TypeTable) : (depth : Nat) → Nat → String
  | 0, _ => ""
  | depth + 1, id =>
    match table.get? id with
    | none => ""
    | some a =>
      if a.name ≠ "" then a.name
      else
        let keyword := if a.union then "union" else "struct"
        let field := fun (name, t) =>
          s!" {name}: " ++ Ty.textWith (table.aggregateText depth) t
        keyword ++ " \x7b" ++ ";".intercalate (a.fields.bindings.map field) ++ " \x7d"

def text (table : TypeTable) (t : Ty) : String :=
  t.textWith (table.aggregateText (table.aggregates.size + 1))

end TypeTable

end TreeWasm
