import TreeWasm.Layout.Basic

/-! # Code nodes

The compiled form of expressions and statements, before instructions are chosen. Every node has a
source position and the layout of its value; statements have the layout of `void`.

A missing child, such as the alternative of a one-armed choice, is `absent`.
-/

namespace TreeWasm

/-- What every node has: where it comes from and how its value is represented. -/
structure Info where
  pos : Position
  layout : Layout
  deriving Repr

inductive Node
  | absent
  | const32 (info : Info) (value : Int32)
  | const64 (info : Info) (value : Int64)
  | constFloat (info : Info) (value : Double)
  /-- An arithmetic or bitwise operation; both operands have the layout of the result. -/
  | binary (info : Info) (op : Operator) (x y : Node)
  | unary (info : Info) (op : Operator) (x : Node)
  /-- Changes a value to the numeric kind of this node's layout. -/
  | convert (info : Info) (x : Node)
  | compare (info : Info) (op : Operator) (x y : Node)
  /-- A value in memory at an address plus an offset. -/
  | data (info : Info) (addr : Node) (offset : Int64)
  /-- The address `ptr + index * size`. -/
  | scaledOffset (info : Info) (ptr index : Node) (size : Int64)
  /-- A value in local slots, one for each leaf of its layout. -/
  | locals (info : Info) (slots : List Nat)
  | ifElse (info : Info) (cond yes no : Node)
  | loop (info : Info) (label : Option Nat) (body : Node)
  /-- A labelled sequence; its value is that of the last child. -/
  | block (info : Info) (label : Option Nat) (children : List Node)
  | seq (info : Info) (children : List Node)
  | branch (info : Info) (label : Nat)
  | branchIf (info : Info) (label : Nat) (cond : Node)
  | branchTable (info : Info) (index : Node) (targets : List Nat) (default : Nat)
  | ret (info : Info) (value : Node)
  | unreachable (info : Info)
  | nop (info : Info)
  | drop (info : Info) (x : Node)
  | structLit (info : Info) (fields : List Node)
  | arrayLit (info : Info) (elems : List Node)
  | call (info : Info) (func : Nat) (name : String) (args : List Node)
  | assign (info : Info) (target value : Node)
  | addressOf (info : Info) (x : Node)
  deriving Repr, Inhabited

namespace Layout

def unit : Layout := .void ⟨.builtin .void, "void"⟩

def index : Layout := .scalar ⟨.builtin .i32, "i32"⟩ .i32

def isFloat (l : Layout) : Bool :=
  l.scalar? == some .f32 || l.scalar? == some .f64

def isBool (l : Layout) : Bool :=
  l.scalar? == some .bool

/-- Whether values are integers proper, neither truth values nor addresses. -/
def isInteger (l : Layout) : Bool :=
  l.isScalar && !l.isFloat && !l.isBool && l.scalar? != some .pointer

end Layout

namespace Node

def info : Node → Info
  | absent => ⟨.unset, .unit⟩
  | const32 info _ | const64 info _ | constFloat info _ | binary info _ _ _ | unary info _ _
  | convert info _ | compare info _ _ _ | data info _ _ | scaledOffset info _ _ _ | locals info _
  | ifElse info _ _ _ | loop info _ _ | block info _ _ | seq info _ | branch info _
  | branchIf info _ _ | branchTable info _ _ _ | ret info _ | unreachable info | nop info
  | drop info _ | structLit info _ | arrayLit info _ | call info _ _ _ | assign info _ _
  | addressOf info _ => info

def pos (n : Node) : Position := n.info.pos

def layout (n : Node) : Layout := n.info.layout

def isAbsent : Node → Bool
  | absent => true
  | _ => false

def formName : Node → String
  | absent => "<nil>"
  | const32 .. => "*ir.Const32"
  | const64 .. => "*ir.Const64"
  | constFloat .. => "*ir.ConstFloat"
  | binary .. => "*ir.Binary"
  | unary .. => "*ir.Unary"
  | convert .. => "*ir.Convert"
  | compare .. => "*ir.Compare"
  | data .. => "*ir.Data"
  | scaledOffset .. => "*ir.ScaledOffset"
  | locals .. => "*ir.Local"
  | ifElse .. => "*ir.If"
  | loop .. => "*ir.Loop"
  | block .. => "*ir.Block"
  | seq .. => "*ir.Seq"
  | branch .. => "*ir.Branch"
  | branchIf .. => "*ir.BranchIf"
  | branchTable .. => "*ir.BranchTable"
  | ret .. => "*ir.Return"
  | unreachable .. => "*ir.Unreachable"
  | nop .. => "*ir.Nop"
  | drop .. => "*ir.Drop"
  | structLit .. => "*ir.StructLit"
  | arrayLit .. => "*ir.ArrayLit"
  | call .. => "*ir.Call"
  | assign .. => "*ir.Assign"
  | addressOf .. => "*ir.AddressOf"

/-- The direct parts of a node, in order of evaluation. -/
def children : Node → List Node
  | binary _ _ x y | compare _ _ x y => [x, y]
  | unary _ _ x | convert _ x | drop _ x | addressOf _ x => [x]
  | data _ addr _ => [addr]
  | scaledOffset _ ptr index _ => [ptr, index]
  | ifElse _ cond yes absent => [cond, yes]
  | ifElse _ cond yes no => [cond, yes, no]
  | loop _ _ body => [body]
  | block _ _ children | seq _ children => children
  | branchIf _ _ cond => [cond]
  | branchTable _ index _ _ => [index]
  | ret _ absent => []
  | ret _ value => [value]
  | structLit _ fields => fields
  | arrayLit _ elems => elems
  | call _ _ _ args => args
  | assign _ target value => [target, value]
  | _ => []

/-- The node at another position; `none` for a missing node. -/
def relocate? (n : Node) (pos : Position) : Option Node :=
  let move := fun (info : Info) => { info with pos := pos }
  match n with
  | absent => none
  | const32 info v => some (const32 (move info) v)
  | const64 info v => some (const64 (move info) v)
  | constFloat info v => some (constFloat (move info) v)
  | binary info op x y => some (binary (move info) op x y)
  | unary info op x => some (unary (move info) op x)
  | convert info x => some (convert (move info) x)
  | compare info op x y => some (compare (move info) op x y)
  | data info addr offset => some (data (move info) addr offset)
  | scaledOffset info ptr index size => some (scaledOffset (move info) ptr index size)
  | locals info slots => some (locals (move info) slots)
  | ifElse info cond yes no => some (ifElse (move info) cond yes no)
  | loop info label body => some (loop (move info) label body)
  | block info label children => some (block (move info) label children)
  | seq info children => some (seq (move info) children)
  | branch info label => some (branch (move info) label)
  | branchIf info label cond => some (branchIf (move info) label cond)
  | branchTable info index targets default => some (branchTable (move info) index targets default)
  | ret info value => some (ret (move info) value)
  | unreachable info => some (unreachable (move info))
  | nop info => some (nop (move info))
  | drop info x => some (drop (move info) x)
  | structLit info fields => some (structLit (move info) fields)
  | arrayLit info elems => some (arrayLit (move info) elems)
  | call info func name args => some (call (move info) func name args)
  | assign info target value => some (assign (move info) target value)
  | addressOf info x => some (addressOf (move info) x)

def reference (n : Node) (pos : Position) : Except Failure Node :=
  match n.relocate? pos with
  | some moved => .ok moved
  | none => .error (.code n.pos (.cannotReference n.formName))

/-! ## Constants -/

/-- A 32-bit constant in the canonical form of its layout. -/
def int32 (info : Info) (v : Int32) : Node :=
  const32 info (info.layout.wrap v.toInt64).toInt32

/-- A float constant, rounded to single precision in a layout of four bytes. -/
def float (info : Info) (v : Double) : Node :=
  constFloat info (if info.layout.size = 4 then v.roundSingle else v)

/-- The constant of the right family for a layout. -/
def constant (info : Info) (c : Constant) : Node :=
  if info.layout.isFloat then float info c.float
  else if info.layout.size = 8 then const64 info c.int
  else int32 info c.int.toInt32

def constant? : Node → Option Constant
  | const32 _ v => some ⟨v.toInt64, .zero⟩
  | const64 _ v => some ⟨v, .zero⟩
  | constFloat _ v => some ⟨0, v⟩
  | _ => none

/-- The address `ptr + index * size`, represented like the pointer. -/
def offsetBy (pos : Position) (ptr index : Node) (size : Int64) : Node :=
  scaledOffset ⟨pos, ptr.layout⟩ ptr index size

end Node

end TreeWasm
