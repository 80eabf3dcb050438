import TreeWasm.Code.Node

/-! # Parts and properties of code nodes

Fields and elements of a value without any code for the whole, the complement of a condition, and
the nodes whose evaluation cannot be observed.
-/

namespace TreeWasm.Node

/-- The slots of the field or element that starts at `first`. -/
def slotRange (slots : List Nat) (first count : Nat) : List Nat :=
  (slots.drop first).take count

def selectIndex (n : Node) (index : Int) : Except Failure Node := do
  let field ← (n.layout.selectIndex index).mapError Failure.layout
  match n with
  | data info addr offset => return data ⟨info.pos, field.layout⟩ addr (offset + field.offset)
  | locals info slots =>
    let kinds ← field.layout.flatten.mapError Failure.layout
    return locals ⟨info.pos, field.layout⟩ (slotRange slots field.slot kinds.length)
  | structLit _ fields => return (fields[index.toNat]?).getD absent
  | _ => throw (.code n.pos (.cannotSelect n.formName))

def select (n : Node) (name : String) : Except Failure Node :=
  match n.layout.fields.findIdx? (fun field => field.name == name) with
  | some index => n.selectIndex index
  | none => .error (.code n.pos (.noField n.layout.text name))

def constantIndex (array index : Node) : Except Failure Nat := do
  let some c := index.constant? | throw (.code index.pos .dynamicIndex)
  let count := match array.layout with
    | .array _ _ (some count) _ => count
    | _ => 0
  if c.int < 0 ∨ c.int ≥ count then throw (.code index.pos (.indexRange c.int count))
  return c.int.toInt.toNat

/-- An element of an array value. Values in slots have only constant indices. -/
def index (n idx : Node) : Except Failure Node := do
  let elem ← n.layout.element.mapError Failure.layout
  match n with
  | data info addr offset =>
    return data ⟨info.pos, elem⟩ (offsetBy idx.pos addr idx elem.size) offset
  | locals info slots =>
    let i ← constantIndex n idx
    let kinds ← elem.flatten.mapError Failure.layout
    return locals ⟨info.pos, elem⟩ (slotRange slots (i * kinds.length) kinds.length)
  | arrayLit _ elems =>
    let i ← constantIndex n idx
    return (elems[i]?).getD absent
  | _ => throw (.code n.pos (.cannotIndex n.formName))

/-- The complement of a condition, when it needs no further instruction. An order on floats has
none, since no relation holds of a NaN. -/
def negate? : Node → Option Node
  | compare info op x y =>
    if x.layout.isFloat then none else some (compare info op.negate x y)
  | unary _ .not x => some x
  | const32 info v => if info.layout.isBool then some (int32 info (1 - v)) else none
  | _ => none

/-- Whether dividing by this node can never trap for lack of a quotient by zero. -/
def isNonzero (n : Node) : Bool :=
  n.constant?.elim false (fun c => c.int ≠ 0)

def isDivision : Operator → Bool
  | .arith .div | .arith .rem => true
  | _ => false

mutual

/-- Whether a node can be evaluated and its value thrown away without anyone noticing. -/
def isPure : Node → Bool
  | absent | const32 .. | const64 .. | constFloat .. | locals .. | nop .. => true
  | data _ addr _ => isPure addr
  | binary _ op x y => (!isDivision op || isNonzero y) && isPure x && isPure y
  | unary _ _ x => isPure x
  | convert info x => !(x.layout.isFloat && info.layout.isInteger) && isPure x
  | compare _ _ x y => isPure x && isPure y
  | scaledOffset _ ptr index _ => isPure ptr && isPure index
  | addressOf _ x => isPure x
  | structLit _ fields => allPure fields
  | arrayLit _ elems => allPure elems
  | _ => false

def allPure : List Node → Bool
  | [] => true
  | n :: rest => isPure n && allPure rest

end

mutual

def any (p : Node → Bool) : Node → Bool
  | absent => false
  | const32 info v => p (const32 info v)
  | const64 info v => p (const64 info v)
  | constFloat info v => p (constFloat info v)
  | binary info op x y => p (binary info op x y) || any p x || any p y
  | unary info op x => p (unary info op x) || any p x
  | convert info x => p (convert info x) || any p x
  | compare info op x y => p (compare info op x y) || any p x || any p y
  | data info addr offset => p (data info addr offset) || any p addr
  | scaledOffset info ptr index size =>
    p (scaledOffset info ptr index size) || any p ptr || any p index
  | locals info slots => p (locals info slots)
  | ifElse info cond yes no => p (ifElse info cond yes no) || any p cond || any p yes || any p no
  | loop info label body => p (loop info label body) || any p body
  | block info label children => p (block info label children) || anyOf p children
  | seq info children => p (seq info children) || anyOf p children
  | branch info label => p (branch info label)
  | branchIf info label cond => p (branchIf info label cond) || any p cond
  | branchTable info index targets default =>
    p (branchTable info index targets default) || any p index
  | ret info value => p (ret info value) || any p value
  | unreachable info => p (unreachable info)
  | nop info => p (nop info)
  | drop info x => p (drop info x) || any p x
  | structLit info fields => p (structLit info fields) || anyOf p fields
  | arrayLit info elems => p (arrayLit info elems) || anyOf p elems
  | call info func name args => p (call info func name args) || anyOf p args
  | assign info target value => p (assign info target value) || any p target || any p value
  | addressOf info x => p (addressOf info x) || any p x

def anyOf (p : Node → Bool) : List Node → Bool
  | [] => false
  | n :: rest => any p n || anyOf p rest

end

def holdsSlot (slots : List Nat) : Node → Bool
  | locals _ held => held.any (fun slot => slots.contains slot)
  | _ => false

/-- Whether a node reads memory or calls a function that may. -/
def touchesMemory : Node → Bool
  | data .. | call .. => true
  | _ => false

end TreeWasm.Node
