import TreeWasm.Lowering.Switch

/-! # Lowering of statements

The rules for each form of statement, and the lowering of whole trees. Temporaries that a
statement takes are given back at its end.
-/

namespace TreeWasm

namespace Lowering

open Lower (fail defect layoutOf)

def varDecl (info : TreeInfo) (name : String) (init : Lowering) : Lower Node := do
  let l ← layoutOf info.type
  let value ←
    if init.node.isMissing then Lower.ofResult (Layout.zero (← read).address info.pos l)
    else init.value
  let held ← Lower.alloc info.pos l
  let storage : Node := .locals ⟨info.pos, l⟩ held.slots
  Lower.bind info.pos name (.variable storage)
  return .assign ⟨info.pos, .unit⟩ storage value

/-- A target that is both read and assigned has its address computed once. -/
def steadyTarget (pos : Position) (target : Node) : Lower (Node × List Node) := do
  match target with
  | .data info addr offset =>
    if Switch.isStable addr then return (target, [])
    else
      let temporary ← Lower.temporary pos addr.layout
      return (.data info temporary offset, [.assign ⟨pos, .unit⟩ temporary addr])
  | _ => return (target, [])

def assign (tree : TreeInfo) (op : Operator) (target value : Lowering) : Lower Node := do
  let info : Info := ⟨tree.pos, .unit⟩
  let lhs ← target.value
  let rhs ← value.value
  if op = .assign then return .assign info lhs rhs
  else
    match op.underlying? with
    | none => defect tree.pos (.unknownAssignment op.text)
    | some arith =>
      let (lhs, prelude) ← steadyTarget tree.pos lhs
      let result ← match target.node.type.unwrap with
        | .pointer _ elem => do
          pure (.offsetBy tree.pos lhs (offsetIndex tree.pos (.arith arith) rhs)
            (← stride elem))
        | _ => pure (.binary ⟨tree.pos, lhs.layout⟩ (.arith arith) lhs rhs)
      return .seq info (prelude ++ [.assign info lhs result])

/-- Whether nothing after a statement runs. -/
def isJump : Tree → Bool
  | .ret _ _ | .break _ | .continue _ => true
  | _ => false

/-- Lowers statements in order, with a warning for one that comes right after a jump. -/
def statements : (afterJump : Bool) → List Lowering → Lower (List Node)
  | _, [] => return []
  | afterJump, s :: rest => do
    if afterJump then Lower.warn s.node.pos .unreachable
    let n ← s.statement
    return n :: (← statements (isJump s.node) rest)

def blockStmt (info : TreeInfo) (stmts : List Lowering) : Lower Node := do
  let children ← Lower.inLevel (statements false stmts)
  return .seq ⟨info.pos, .unit⟩ children

/-- A conditional statement, with a warning if its condition is constant. -/
def ifStmt (info : TreeInfo) (cond yes no : Lowering) : Lower Node := do
  let c ← cond.value
  match (← Lower.fold c).constant? with
  | some value => Lower.warn cond.node.pos (.constantCondition (value.int ≠ 0))
  | none => pure ()
  let y ← yes.statement
  let n ← if no.node.isMissing then pure .absent else no.statement
  return .ifElse ⟨info.pos, .unit⟩ c y n

/-- The body of a loop, with the labels to leave it and to go round again. -/
def loopBody (body : Lowering) (exit again : Nat) : Lower Node :=
  withReader (fun context => { context with breakTo := some exit, continueTo := some again })
    (Lower.inLevel body.statement)

/-- A loop around its body and a branch back to its start. -/
def loopAround (info : Info) (exit again : Nat) (inner : List Node) : Lower Node := do
  let back ← Lower.branch info again
  return .block info (some exit) [.loop info (some again) (.seq info (inner ++ [back]))]

def loop (tree : TreeInfo) (body : Lowering) : Lower Node := do
  let exit ← Lower.freshLabel
  let again ← Lower.freshLabel
  let b ← loopBody body exit again
  loopAround ⟨tree.pos, .unit⟩ exit again [b]

def whileLoop (tree : TreeInfo) (cond body : Lowering) : Lower Node := do
  let info : Info := ⟨tree.pos, .unit⟩
  let exit ← Lower.freshLabel
  let again ← Lower.freshLabel
  let c ← cond.value
  let b ← loopBody body exit again
  let leave ← Lower.branchIf info exit (.unary ⟨cond.node.pos, .truth⟩ .not c)
  loopAround info exit again [leave, b]

def jump (info : TreeInfo) (keyword : String) (target : LowerContext → Option Nat) :
    Lower Node := do
  match target (← read) with
  | some label => Lower.branch ⟨info.pos, .unit⟩ label
  | none => fail info.pos (.jumpOutside keyword)

def ret (info : TreeInfo) (value : Lowering) : Lower Node := do
  if !(← read).inFunction then fail info.pos .returnOutside
  else
    let v ← if value.node.isMissing then pure .absent else value.value
    return .ret ⟨info.pos, .unit⟩ v

/-- An expression as a statement: its value is dropped. -/
def discard (pos : Position) (value : Lower Node) : Lower Node := do
  let n ← value
  if n.layout.isVoid then return n
  else
    if n.isPure then Lower.warn pos .unusedResult
    return .drop ⟨pos, .unit⟩ n

/-- An expression in its two roles. The layout of its type comes first. -/
def ofExpression (node : Tree) (value : Layout → Lower Node) : Lowering :=
  let value := do value (← layoutOf node.type)
  let statement := Lower.withTemporaries (discard node.pos value)
  ⟨node, value, statement, statement⟩

def ofStatement (node : Tree) (statement : Lower Node) : Lowering :=
  let refuse := do
    let _ ← layoutOf node.type
    defect node.pos (.notAValue node.kindName)
  let statement := Lower.withTemporaries statement
  ⟨node, refuse, statement, statement⟩

/-- A node that is a statement, or a value when its type is not void. -/
def ofEither (node : Tree) (statement : Lower Node) (value : Layout → Lower Node) : Lowering :=
  let statement := Lower.withTemporaries statement
  let value := do
    let l ← layoutOf node.type
    if l.isVoid then statement else value l
  ⟨node, value, statement, statement⟩

end Lowering

open Lowering in
mutual

def Tree.lowering : Tree → Lowering
  | .number info value =>
    ofExpression (.number info value) (fun l => return Lowering.number info value l)
  | .float info value =>
    ofExpression (.float info value) (fun l => return .float ⟨info.pos, l⟩ value)
  | .bool info value =>
    ofExpression (.bool info value) (fun l => return Lowering.bool info value l)
  | .ident info name => ofExpression (.ident info name) (fun _ => Lowering.ident info name)
  | .binary info op left right =>
    ofExpression (.binary info op left right)
      (Lowering.binary info op left.lowering right.lowering)
  | .unary info op operand =>
    let x := operand.lowering
    ofExpression (.unary info op operand)
      (fun l => return .unary ⟨info.pos, l⟩ op (← x.value))
  | .call info callee args =>
    ofExpression (.call info callee args) (Lowering.call info callee (Tree.lowerings args))
  | .member info value name =>
    let x := value.lowering
    ofExpression (.member info value name) (fun _ => Lowering.member info x name)
  | .subscript info array index =>
    ofExpression (.subscript info array index)
      (Lowering.subscript info array.lowering index.lowering)
  | .deref info pointer =>
    ofExpression (.deref info pointer) (Lowering.deref info pointer.lowering)
  | .addressOf info operand =>
    ofExpression (.addressOf info operand) (Lowering.addressOf info operand.lowering)
  | .cast info value target =>
    ofExpression (.cast info value target) (Lowering.cast info value.lowering)
  | .structLit info names values =>
    let parts := Tree.lowerings values
    ofExpression (.structLit info names values)
      (fun l => return .structLit ⟨info.pos, l⟩ (← parts.mapM Lowering.value))
  | .arrayLit info values =>
    let parts := Tree.lowerings values
    ofExpression (.arrayLit info values)
      (fun l => return .arrayLit ⟨info.pos, l⟩ (← parts.mapM Lowering.value))
  | .ifElse info cond yes no =>
    let c := cond.lowering
    let y := yes.lowering
    let n := no.lowering
    ofEither (.ifElse info cond yes no) (ifStmt info c y n) (ifValue info c y n)
  | .block info stmts =>
    let parts := Tree.lowerings stmts
    ofEither (.block info stmts) (blockStmt info parts) (blockValue info parts)
  | .varDecl info name declared init =>
    ofStatement (.varDecl info name declared init) (Lowering.varDecl info name init.lowering)
  | .assign info op target value =>
    ofStatement (.assign info op target value)
      (Lowering.assign info op target.lowering value.lowering)
  | .whileLoop info cond body =>
    ofStatement (.whileLoop info cond body)
      (Lowering.whileLoop info cond.lowering body.lowering)
  | .loop info body => ofStatement (.loop info body) (Lowering.loop info body.lowering)
  | .switch info selector cases fallback =>
    ofStatement (.switch info selector cases fallback)
      (Switch.lower info selector.lowering (Tree.lowerings cases) fallback.lowering)
  | .break info =>
    ofStatement (.break info) (jump info "break" LowerContext.breakTo)
  | .continue info =>
    ofStatement (.continue info) (jump info "continue" LowerContext.continueTo)
  | .ret info value => ofStatement (.ret info value) (Lowering.ret info value.lowering)
  | .case info values body =>
    let b := body.lowering
    { ofExpression (.case info values body)
        (fun _ => Lower.defect info.pos (.notAValue "Case")) with
      body := b.statement }
  | other =>
    ofExpression other (fun _ => Lower.defect other.pos (.notAValue other.kindName))

def Tree.lowerings : List Tree → List Lowering
  | [] => []
  | tree :: rest => tree.lowering :: Tree.lowerings rest

end

end TreeWasm
