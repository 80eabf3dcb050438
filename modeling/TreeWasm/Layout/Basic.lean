import TreeWasm.Layout.Scalar
import TreeWasm.Wasm.Module

/-! # Layouts

How values of a type are represented: as a row of slots of primitive kinds, and as bytes in
memory. A layout belongs to an occurrence of a type, and two layouts are the same exactly if they
belong to the same occurrence.

The leaves of a layout are its slots with their places in memory. A union has a size but no
slots.
-/

namespace TreeWasm

open Wasm

/-- What tells the layout of one type from that of another. -/
inductive TypeKey
  | builtin (b : Builtin)
  | occurrence (number : Nat)
  | aggregate (id : Nat)
  | openArray
  deriving DecidableEq, Repr

/-- The type that a layout belongs to: its key, and its spelling for messages. -/
structure TypeTag where
  key : TypeKey
  text : String
  deriving DecidableEq, Repr

/-- A member of a struct: its offset in bytes and the index of its first slot. -/
structure Field (α : Type) where
  name : String
  layout : α
  offset : Int64
  slot : Nat
  deriving Repr

inductive Layout
  | void (tag : TypeTag)
  | scalar (tag : TypeTag) (kind : Scalar)
  | struct (tag : TypeTag) (union : Bool) (size : Int64) (fields : List (Field Layout))
  | array (tag : TypeTag) (elem : Layout) (count : Option Int64) (size : Int64)
  deriving Repr

/-- One slot of a layout with its offset in memory. -/
structure Leaf where
  offset : Int64
  tag : TypeTag
  kind : Scalar
  deriving DecidableEq, Repr

namespace Leaf

def shift (base : Int64) (leaf : Leaf) : Leaf :=
  { leaf with offset := base + leaf.offset }

def layout (leaf : Leaf) : Layout :=
  .scalar leaf.tag leaf.kind

def slot (leaf : Leaf) : ValType :=
  leaf.kind.slot

end Leaf

namespace Layout

def tag : Layout → TypeTag
  | void tag => tag
  | scalar tag _ => tag
  | struct tag _ _ _ => tag
  | array tag _ _ _ => tag

/-- Whether two layouts belong to the same occurrence of a type. -/
def same (l m : Layout) : Bool :=
  l.tag.key == m.tag.key

def isVoid : Layout → Bool
  | void _ => true
  | _ => false

def scalar? : Layout → Option Scalar
  | scalar _ kind => some kind
  | _ => none

def isScalar (l : Layout) : Bool :=
  l.scalar?.isSome

def size : Layout → Int64
  | void _ => 0
  | scalar _ kind => Int64.ofNat kind.size
  | struct _ _ size _ => size
  | array _ _ _ size => size

def slot (l : Layout) : ValType :=
  l.scalar?.elim .invalid Scalar.slot

def fields : Layout → List (Field Layout)
  | struct _ _ _ fields => fields
  | _ => []

/-- The size of an array without a length, in bytes: that of an address. -/
def openArraySize : Nat := 4

/-- The slot of an array without a length: an address. -/
def openArraySlot : Leaf := ⟨0, ⟨.openArray, "*void"⟩, .pointer⟩

mutual

/-- The slots of a layout in order, with their places in memory. -/
def leaves : Layout → Except LayoutDefect (List Leaf)
  | void _ => .ok []
  | scalar tag kind => .ok [⟨0, tag, kind⟩]
  | struct tag union _ fields =>
    if union then .error (.unionInRegisters tag.text) else fieldLeaves fields
  | array _ _ none _ => .ok [openArraySlot]
  | array _ elem (some count) _ =>
    if count ≤ 0 then .ok []
    else
      match leaves elem with
      | .error defect => .error defect
      | .ok row =>
        .ok ((List.range count.toInt.toNat).flatMap (fun i =>
          row.map (Leaf.shift (Int64.ofNat i * elem.size))))

def fieldLeaves : List (Field Layout) → Except LayoutDefect (List Leaf)
  | [] => .ok []
  | ⟨_, layout, offset, _⟩ :: rest =>
    match leaves layout with
    | .error defect => .error defect
    | .ok row =>
      match fieldLeaves rest with
      | .error defect => .error defect
      | .ok more => .ok (row.map (Leaf.shift offset) ++ more)

end

def flatten (l : Layout) : Except LayoutDefect (List ValType) :=
  l.leaves.map (fun leaves => leaves.map Leaf.slot)

mutual

def text : Layout → String
  | void _ => "void"
  | scalar tag kind => s!"{tag.text}({kind.slot.text})"
  | array _ elem (some count) _ => s!"[{count}]" ++ text elem
  | array _ elem none _ => "[]" ++ text elem
  | struct _ union _ fields =>
    (if union then "union\x7b" else "struct\x7b") ++ ", ".intercalate (fieldTexts fields) ++ "\x7d"

def fieldTexts : List (Field Layout) → List String
  | [] => []
  | ⟨name, layout, offset, _⟩ :: rest => (s!"{name}@{offset}: " ++ text layout) :: fieldTexts rest

end

def select (l : Layout) (name : String) : Except LayoutDefect (Field Layout) :=
  match l.fields.find? (fun field => field.name == name) with
  | some field => .ok field
  | none => .error (.noField l.text name)

def selectIndex (l : Layout) (index : Int) : Except LayoutDefect (Field Layout) :=
  match (if index < 0 then none else l.fields[index.toNat]?) with
  | some field => .ok field
  | none => .error (.noFieldAt l.text index)

def element (l : Layout) : Except LayoutDefect Layout :=
  match l with
  | array _ elem _ _ => .ok elem
  | _ => .error (.notIndexable l.text)

/-- The annotation of a block that leaves a value of this layout. A value of several slots
interns a signature. -/
def blockType (l : Layout) (m : Module) : Except LayoutDefect (Module × BlockType) :=
  l.flatten.map (fun slots =>
    match slots with
    | [] => (m, .empty)
    | [slot] => (m, .value slot)
    | _ =>
      let (m, index) := m.intern ⟨[], slots⟩
      (m, .signature index))

def arith (l : Layout) (op : Operator) : Except LayoutDefect Numeric :=
  match l.scalar?, op with
  | some kind, .arith op => ((kind.arith? op).elim (.error (.undefinedOn op.text l.text)) .ok)
  | _, _ => .error (.undefinedOn op.text l.text)

def compare (l : Layout) (op : Operator) : Except LayoutDefect Numeric :=
  match l.scalar?, op with
  | some kind, .relation rel => .ok (kind.compare rel)
  | _, _ => .error (.incomparable op.text l.text)

def needsClamp (l : Layout) : Bool :=
  l.scalar?.elim false Scalar.needsClamp

def clamp (l : Layout) (signExt : Bool) : List Instr :=
  l.scalar?.elim [] (Scalar.clamp signExt)

/-- The canonical form of an integer of this layout. -/
def wrap (l : Layout) (v : Int64) : Int64 :=
  l.scalar?.elim v.toInt32.toInt64 (fun kind => kind.wrap v)

def isSigned (l : Layout) : Bool :=
  l.scalar?.elim false (fun kind => kind.sign == .signed)

/-- An offset that fits the immediate of a memory instruction. -/
def memoryOffset (offset : Int64) : Except LayoutDefect Nat :=
  if 0 ≤ offset ∧ offset ≤ 0xFFFFFFFF then .ok offset.toInt.toNat
  else .error (.memoryOffset offset)

/-- The read of a scalar from the address on the stack plus an offset. -/
def load (l : Layout) (offset : Int64) : Except LayoutDefect Instr :=
  match l.scalar? with
  | none => .error (.load l.text)
  | some kind => (memoryOffset offset).map (Instr.load kind.loadOp)

/-- The write of the scalar on the stack to the address below it plus an offset. -/
def store (l : Layout) (offset : Int64) : Except LayoutDefect Instr :=
  match l.scalar? with
  | none => .error (.store l.text)
  | some kind => (memoryOffset offset).map (Instr.store kind.storeOp)

end Layout

end TreeWasm
