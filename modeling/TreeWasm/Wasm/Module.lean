import TreeWasm.Checksum
import TreeWasm.Text.Utf8
import TreeWasm.Wasm.Instr

/-! # Modules

A module under construction and its binary form. Function indices count the imports first, so
every import is added before the first function is declared. Signatures are interned: asking for
a signature twice gives one index. They are found through a digest of their encoding, and
compared on every hit, so that the digest decides nothing.
-/

namespace TreeWasm.Wasm

namespace FuncType

def encode (ft : FuncType) : List UInt8 :=
  let list := fun (types : List ValType) => counted (types.map (fun v => [v.byte]))
  0x60 :: (list ft.params ++ list ft.results)

def digest (ft : FuncType) : UInt64 :=
  Checksum.ofBytes ft.encode

end FuncType

structure Import where
  module : String
  name : String
  signature : Nat
  deriving DecidableEq, Repr, Inhabited

/-- The locals beyond the parameters and the code of a function, without its final `end`. -/
structure Body where
  locals : List ValType
  code : List UInt8
  deriving DecidableEq, Repr, Inhabited

/-- A declared function; the body may follow later. -/
structure Function where
  signature : Nat
  body : Option Body
  deriving DecidableEq, Repr

/-- What an export names. -/
inductive ExternKind
  | function | memory | global
  | other (byte : UInt8)
  deriving DecidableEq, Repr

namespace ExternKind

def byte : ExternKind → UInt8
  | function => 0x00
  | memory => 0x02
  | global => 0x03
  | other byte => byte

def ofByte (b : UInt8) : ExternKind :=
  ([function, memory, global].find? (fun kind => kind.byte == b)).getD (other b)

end ExternKind

structure Export where
  name : String
  kind : ExternKind
  index : Nat
  deriving DecidableEq, Repr

structure Global where
  type : ValType
  mutable : Bool
  value : Int64
  deriving DecidableEq, Repr

/-- Initial content of a range of memory. -/
structure Segment where
  offset : UInt32
  data : List UInt8
  deriving DecidableEq, Repr

/-- Memory size in pages; a maximum of 0 stands for none. -/
structure Limits where
  min : UInt32
  max : UInt32
  deriving DecidableEq, Repr

structure Interned where
  digest : UInt64
  index : Nat
  deriving DecidableEq, Repr

structure Module where
  types : List FuncType := []
  interned : List Interned := []
  imports : List Import := []
  functions : List Function := []
  exports : List Export := []
  globals : List Global := []
  segments : List Segment := []
  memory : Option Limits := none
  start : Option Nat := none
  deriving DecidableEq, Repr, Inhabited

namespace Module

def empty : Module := {}

/-- The index of a signature that has been interned with the given digest. -/
def findSignature? (m : Module) (key : UInt64) (ft : FuncType) : Option Nat :=
  (m.interned.find? (fun entry => entry.digest == key && m.types[entry.index]? == some ft)).map
    Interned.index

/-- Interns a signature under any digest function. -/
def internWith (digest : FuncType → UInt64) (m : Module) (ft : FuncType) : Module × Nat :=
  match m.findSignature? (digest ft) ft with
  | some index => (m, index)
  | none =>
    let index := m.types.length
    ({ m with types := m.types ++ [ft], interned := m.interned ++ [⟨digest ft, index⟩] }, index)

def intern (m : Module) (ft : FuncType) : Module × Nat :=
  m.internWith FuncType.digest ft

/-- Adds an imported function, its signature interned under any digest function; imports come before
functions. -/
def addImportWith (digest : FuncType → UInt64) (m : Module) (module name : String) (ft : FuncType) :
    Except ModuleFault (Module × Nat) :=
  if m.functions.isEmpty then
    let (interned, signature) := m.internWith digest ft
    .ok ({ interned with imports := m.imports ++ [⟨module, name, signature⟩] }, m.imports.length)
  else .error (.lateImport module name)

def addImport (m : Module) (module name : String) (ft : FuncType) :
    Except ModuleFault (Module × Nat) :=
  m.addImportWith FuncType.digest module name ft

/-- Reserves a function index, so that calls can be written before the body is known. -/
def declareWith (digest : FuncType → UInt64) (m : Module) (ft : FuncType) : Module × Nat :=
  let (interned, signature) := m.internWith digest ft
  ({ interned with functions := m.functions ++ [⟨signature, none⟩] },
    m.imports.length + m.functions.length)

def declare (m : Module) (ft : FuncType) : Module × Nat :=
  m.declareWith FuncType.digest ft

def define (m : Module) (index : Nat) (body : Body) : Except ModuleFault Module :=
  if index < m.imports.length then .error (.undeclared index)
  else
    match m.functions[index - m.imports.length]? with
    | none => .error (.undeclared index)
    | some function =>
      if function.body.isSome then .error (.definedTwice index)
      else
        .ok { m with
          functions := m.functions.set (index - m.imports.length)
            { function with body := some body } }

def addExport (m : Module) (name : String) (kind : ExternKind) (index : Nat) : Module :=
  { m with exports := m.exports ++ [⟨name, kind, index⟩] }

def addGlobal (m : Module) (global : Global) : Module × Nat :=
  ({ m with globals := m.globals ++ [global] }, m.globals.length)

def addData (m : Module) (offset : UInt32) (data : List UInt8) : Module :=
  { m with segments := m.segments ++ [⟨offset, data⟩] }

def setMemory (m : Module) (limits : Limits) : Module :=
  { m with memory := some limits }

def setStart (m : Module) (index : Nat) : Module :=
  { m with start := some index }

/-- The imports as a host sees them: module, name and signature. -/
def importList (m : Module) : List (String × String × FuncType) :=
  m.imports.map (fun i => (i.module, i.name, (m.types[i.signature]?).getD default))

end Module

/-! ## Binary form -/

def nameBytes (name : String) : List UInt8 :=
  let bytes := Text.bytes name
  Leb128.unsigned bytes.length ++ bytes

def Import.encode (i : Import) : List UInt8 :=
  nameBytes i.module ++ nameBytes i.name ++ indexed ExternKind.function.byte i.signature

def Limits.encode (limits : Limits) : List UInt8 :=
  if 0 < limits.max then
    indexed 0x01 limits.min.toNat ++ Leb128.unsigned limits.max.toNat
  else indexed 0x00 limits.min.toNat

def Global.encode (global : Global) : List UInt8 :=
  [global.type.byte, if global.mutable then 0x01 else 0x00,
    if global.type = .i64 then 0x42 else 0x41] ++
  Leb128.signed global.value.toInt ++ [Instr.endByte]

def Export.encode (e : Export) : List UInt8 :=
  nameBytes e.name ++ indexed e.kind.byte e.index

def Segment.encode (segment : Segment) : List UInt8 :=
  [0x00, 0x41] ++ Leb128.signed segment.offset.toInt32.toInt ++ [Instr.endByte] ++
  Leb128.unsigned segment.data.length ++ segment.data

/-- Consecutive equal types as groups of a count and a type. -/
def runs : List ValType → List (Nat × ValType)
  | [] => []
  | v :: rest =>
    match runs rest with
    | (count, w) :: groups => if v = w then (count + 1, w) :: groups else (1, v) :: (count, w) :: groups
    | [] => [(1, v)]

def encodeLocals (locals : List ValType) : List UInt8 :=
  counted ((runs locals).map (fun (count, type) => Leb128.unsigned count ++ [type.byte]))

/-- The body with the final `end`, without its length. -/
def Body.encode (body : Body) : List UInt8 :=
  encodeLocals body.locals ++ body.code ++ [Instr.endByte]

def sectionBytes (id : UInt8) (content : List UInt8) : List UInt8 :=
  id :: (Leb128.unsigned content.length ++ content)

/-- A section that is left out when it has no items. -/
def listSection (id : UInt8) (items : List (List UInt8)) : List UInt8 :=
  if items.isEmpty then [] else sectionBytes id (counted items)

def header : List UInt8 := [0x00, 0x61, 0x73, 0x6D, 0x01, 0x00, 0x00, 0x00]

/-- A module in binary form, and for each function the offset of its first instruction. -/
structure Encoded where
  bytes : List UInt8
  bodyOffsets : List Nat
  deriving DecidableEq, Repr

namespace Module

/-- The bodies of all functions, unless one has none. -/
def bodies (m : Module) : Except ModuleFault (List Body) :=
  (m.functions.zipIdx m.imports.length).mapM (fun (function, index) =>
    match function.body with
    | some body => .ok body
    | none => .error (.neverDefined index))

/-- The sections before the code. -/
def encodeHead (m : Module) : List UInt8 :=
  header ++
  listSection 1 (m.types.map FuncType.encode) ++
  listSection 2 (m.imports.map Import.encode) ++
  listSection 3 (m.functions.map (fun f => Leb128.unsigned f.signature)) ++
  (m.memory.elim [] (fun limits => sectionBytes 5 (Leb128.unsigned 1 ++ limits.encode))) ++
  listSection 6 (m.globals.map Global.encode) ++
  listSection 7 (m.exports.map Export.encode) ++
  (m.start.elim [] (fun index => sectionBytes 8 (Leb128.unsigned index)))

/-- The offsets of the first instructions, for bodies that are written from `offset` on. -/
def firstInstructions (offset : Nat) : List Body → List Nat
  | [] => []
  | body :: rest =>
    let size := body.encode.length
    let start := offset + (Leb128.unsigned size).length
    (start + (encodeLocals body.locals).length) :: firstInstructions (start + size) rest

/-- The binary form, when every declared function has a body. -/
def encode (m : Module) : Except ModuleFault Encoded := do
  let bodies ← m.bodies
  let head := m.encodeHead
  let entries := bodies.map (fun body =>
    let bytes := body.encode
    Leb128.unsigned bytes.length ++ bytes)
  let content := counted entries
  let first := head.length + 1 + (Leb128.unsigned content.length).length +
    (Leb128.unsigned bodies.length).length
  return {
    bytes := head ++ listSection 10 entries ++ listSection 11 (m.segments.map Segment.encode)
    bodyOffsets := firstInstructions first bodies }

end Module

end TreeWasm.Wasm
