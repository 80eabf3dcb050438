import TreeWasm.Lowering.Basic
import TreeWasm.Program.Tree

/-! # Lowering of expressions

The rules for each form of expression, given the lowering of its parts. Places come out as their
storage, a value in memory or in slots, which can be read and assigned alike.
-/

namespace TreeWasm

def Layout.truth : Layout := .scalar ⟨.builtin .bool, "bool"⟩ .bool

/-- A tree node with its lowering as a value and as a statement. -/
structure Lowering where
  node : Tree
  value : Lower Node
  statement : Lower Node
  /-- The lowering of what a case of a switch does; for any other node that of the statement. -/
  body : Lower Node

namespace Lowering

open Lower (fail defect layoutOf)

/-- The step of pointer arithmetic: the size of what is pointed to, but at least one byte. -/
def stride (elem : Ty) : Lower Int64 := do
  let size := (← layoutOf elem).size
  return if size = 0 then 1 else size

/-- An index of the width of addresses. -/
def indexValue (n : Node) : Node :=
  if n.layout.slot = .i64 then .convert ⟨n.pos, .index⟩ n else n

/-- The index that a pointer is moved by. -/
def offsetIndex (pos : Position) (op : Operator) (n : Node) : Node :=
  let index := indexValue n
  if op = .arith .sub then .unary ⟨pos, .index⟩ (.arith .sub) index else index

def number (info : TreeInfo) (value : Int64) (l : Layout) : Node :=
  if l.isFloat then .float ⟨info.pos, l⟩ (.ofFloat value.toFloat)
  else .constant ⟨info.pos, l⟩ ⟨value, .zero⟩

def bool (info : TreeInfo) (value : Bool) (l : Layout) : Node :=
  .int32 ⟨info.pos, l⟩ (if value then 1 else 0)

def ident (info : TreeInfo) (name : String) : Lower Node := do
  match ← Lower.resolve info.pos name with
  | .function _ => fail info.pos (.functionAsValue name)
  | .variable storage | .parameter storage => Lower.ofResult (storage.reference info.pos)

/-- An operation on pointers: a difference in elements, or a move by elements. -/
def pointerArith (info : Info) (op : Operator) (elem right : Ty) (x y : Node) : Lower Node := do
  let size ← stride elem
  if right.unwrap.isPointer then
    let difference := Node.binary info (.arith .sub) (.convert info x) (.convert info y)
    if size = 1 then return difference
    else return .binary info (.arith .div) difference (.int32 info size.toInt32)
  else return .offsetBy info.pos x (offsetIndex info.pos op y) size

def binary (tree : TreeInfo) (op : Operator) (left right : Lowering) (l : Layout) :
    Lower Node := do
  let info : Info := ⟨tree.pos, l⟩
  let x ← left.value
  let y ← right.value
  match op with
  | .both => return .ifElse info x y (.int32 info 0)
  | .either => return .ifElse info x (.int32 info 1) y
  | _ =>
    if op.isComparison then return .compare info op x y
    else
      match left.node.type.unwrap with
      | .pointer _ elem => pointerArith info op elem right.node.type x y
      | _ => return .binary info op x y

def call (info : TreeInfo) (callee : Tree) (args : List Lowering) (l : Layout) : Lower Node := do
  match callee with
  | .ident calleeInfo name =>
    match ← Lower.resolve calleeInfo.pos name with
    | .function f =>
      let values ← args.mapM Lowering.value
      return .call ⟨info.pos, l⟩ f.index name values
    | _ => fail info.pos (.notFunction name)
  | other => defect info.pos (.notAValue other.kindName)

/-- A node whose parts can be picked without code for the whole, and the assignment that has to
run before. Anything but a place or a pure literal is kept in a temporary. -/
def selectable (n : Node) : Lower (Node × List Node) := do
  let keep := match n with
    | .data .. | .locals .. => true
    | .structLit .. | .arrayLit .. => n.isPure
    | _ => false
  if keep then return (n, [])
  else
    let temporary ← Lower.temporary n.pos n.layout
    return (temporary, [.assign ⟨n.pos, .unit⟩ temporary n])

/-- A node with the assignments that run before it. -/
def after (pos : Position) (prelude : List Node) (n : Node) : Node :=
  if prelude.isEmpty then n else .seq ⟨pos, n.layout⟩ (prelude ++ [n])

def member (info : TreeInfo) (value : Lowering) (name : String) : Lower Node := do
  let base ← value.value
  let base ← match value.node.type.unwrap with
    | .pointer _ elem => do
      Lower.useMemory
      pure (.data ⟨value.node.pos, ← layoutOf elem⟩ base 0)
    | _ => pure base
  let (base, prelude) ← selectable base
  let field ← Lower.ofResult (base.select name)
  return after info.pos prelude (← Lower.ofResult (field.reference info.pos))

/-- The index into an array in slots, which must be a constant within its length. -/
def slotIndex (pos : Position) (array : Ty) (base index : Node) : Lower Node := do
  let folded ← Lower.fold index
  match folded.constant? with
  | none => fail pos .dynamicIndex
  | some c =>
    let count := match base.layout with
      | .array _ _ (some count) _ => count
      | _ => 0
    if c.int < 0 || count ≤ c.int then
      fail pos (.indexOutOfRange c.int ((← get).table.text array))
    else return folded

def subscript (info : TreeInfo) (array index : Lowering) (l : Layout) : Lower Node := do
  let base ← array.value
  let idx := indexValue (← index.value)
  let t := array.node.type.unwrap
  if t.isPointer then
    Lower.useMemory
    return .data ⟨info.pos, l⟩ (.offsetBy info.pos base idx l.size) 0
  else
    let (base, prelude) ← selectable base
    let idx ← match base with
      | .data .. => pure idx
      | _ => slotIndex index.node.pos t base idx
    let elem ← Lower.ofResult (base.index idx)
    return after info.pos prelude (← Lower.ofResult (elem.reference info.pos))

def deref (info : TreeInfo) (pointer : Lowering) (l : Layout) : Lower Node := do
  Lower.useMemory
  return .data ⟨info.pos, l⟩ (← pointer.value) 0

def addressOf (info : TreeInfo) (operand : Lowering) (l : Layout) : Lower Node := do
  match ← operand.value with
  | .data dataInfo addr offset =>
    Lower.useMemory
    return .addressOf ⟨info.pos, l⟩ (.data dataInfo addr offset)
  | _ => fail info.pos .addressOfLocal

def cast (info : TreeInfo) (value : Lowering) (l : Layout) : Lower Node := do
  let x ← value.value
  if x.layout.same l then Lower.ofResult (x.reference info.pos)
  else return .convert ⟨info.pos, l⟩ x

def ifValue (info : TreeInfo) (cond yes no : Lowering) (l : Layout) : Lower Node := do
  Lower.requireMultiValue info.pos l "An 'if' value"
  let c ← cond.value
  let y ← yes.value
  return .ifElse ⟨info.pos, l⟩ c y (← no.value)

/-- A block as a value: its statements and then its last expression. -/
def blockValue (info : TreeInfo) (stmts : List Lowering) (l : Layout) : Lower Node := do
  match stmts.getLast? with
  | none => defect info.pos (.notAValue "Block")
  | some last =>
    let children ← Lower.inLevel do
      let children ← stmts.dropLast.mapM Lowering.statement
      return children ++ [← last.value]
    return .seq ⟨info.pos, l⟩ children

end Lowering

mutual

/-- The value with all bits zero. -/
def Layout.zero (address : Layout) (pos : Position) : Layout → Except Failure Node
  | .scalar tag kind => .ok (.constant ⟨pos, .scalar tag kind⟩ ⟨0, .zero⟩)
  | .struct tag union size fields =>
    if union then .error (.lowering pos (.unionInLocals tag.text))
    else
      match Layout.zeroFields address pos fields with
      | .error failure => .error failure
      | .ok values => .ok (.structLit ⟨pos, .struct tag union size fields⟩ values)
  | .array _ _ none _ => .ok (.constant ⟨pos, address⟩ ⟨0, .zero⟩)
  | .array tag elem (some count) size =>
    if count ≤ 0 then .ok (.arrayLit ⟨pos, .array tag elem (some count) size⟩ [])
    else
      match Layout.zero address pos elem with
      | .error failure => .error failure
      | .ok value =>
        .ok (.arrayLit ⟨pos, .array tag elem (some count) size⟩
          (List.replicate count.toInt.toNat value))
  | .void tag => .error (.pipeline pos (.noZero (Layout.void tag).text))

def Layout.zeroFields (address : Layout) (pos : Position) :
    List (Field Layout) → Except Failure (List Node)
  | [] => .ok []
  | ⟨_, layout, _, _⟩ :: rest =>
    match Layout.zero address pos layout with
    | .error failure => .error failure
    | .ok value =>
      match Layout.zeroFields address pos rest with
      | .error failure => .error failure
      | .ok values => .ok (value :: values)

end

end TreeWasm
