import TreeWasm.Fault
import TreeWasm.Program.Tree
import TreeWasm.Typed.Sameness

/-! # Typing

Gives every node of a program tree its type, and refuses programs in which types do not fit. The
first fault ends the check.

A node is checked for the use that is made of it: as a statement, or for a value of a type that may
be expected. An expected type decides the type of literals. The rules for each form take its parts
with their own checks; `Tree.check` ties them together by recursion on the tree.
-/

namespace TreeWasm

structure TypedName where
  type : Ty
  isFunction : Bool
  declared : Position
  deriving Repr

inductive Use
  | statement
  /-- For its value; `absent` expects no type in particular. -/
  | value (expected : Ty)
  /-- As a case of a switch. -/
  | branch
  deriving Repr

namespace Use

def expected : Use → Ty
  | value t => t.unwrap
  | _ => .absent

def isStatement : Use → Bool
  | statement => true
  | _ => false

end Use

structure CheckContext where
  /-- The name and the result of the function around. -/
  function : Option (String × Ty) := none
  inLoop : Bool := false
  inBreakable : Bool := false

structure CheckState where
  table : TypeTable
  names : Chain TypedName
  resolved : List Resolution
  deriving Repr

abbrev Check := ReaderT CheckContext (StateT CheckState (Except Failure))

structure Checker where
  node : Tree
  check : Use → Check Tree

namespace Check

def fail {α : Type} (pos : Position) (fault : TypingFault) : Check α :=
  throw (.typing pos fault)

def text (t : Ty) : Check String := do
  return (← get).table.text t

/-- Binds a name in the innermost level, once. -/
def bind (pos : Position) (name : String) (value : TypedName) : Check Unit := do
  let state ← get
  if (state.names.lookupLocal name).isSome then fail pos (.redefinition name)
  else set { state with names := state.names.define name value }

def find (pos : Position) (name : String) : Check TypedName := do
  let state ← get
  match state.names.lookup name with
  | some value =>
    set { state with resolved := ⟨pos, name, value.declared⟩ :: state.resolved }
    return value
  | none => fail pos (.undefined name)

def inLevel {α : Type} (check : Check α) : Check α := do
  modify (fun state => { state with names := Level.empty :: state.names })
  let result ← check
  modify (fun state => { state with names := state.names.drop 1 })
  return result

def inLoop {α : Type} (check : Check α) : Check α :=
  withReader (fun context => { context with inLoop := true, inBreakable := true }) check

def inSwitch {α : Type} (check : Check α) : Check α :=
  withReader (fun context => { context with inBreakable := true }) check

/-- Requires a value of one type where another is wanted. -/
def expect (pos : Position) (want got : Ty) : Check Unit := do
  if want.unwrap.same got.unwrap then return
  else fail pos (.mismatch (← text got.unwrap) (← text want.unwrap))

/-- Checks a node for a value of a type and requires it to have this type. -/
def fitting (want : Ty) (checker : Checker) : Check Tree := do
  let tree ← checker.check (.value want)
  expect checker.node.pos want tree.type
  return tree

def condition (checker : Checker) : Check Tree := do
  let tree ← checker.check (.value .bool)
  if tree.type.isBuiltin .bool then return tree
  else fail checker.node.pos (.conditionType (← text tree.type.unwrap))

end Check

open Check (fail text)

namespace Typing

/-- The type of a number: the one written, the one expected, or the narrowest of two. -/
def numberType (written expected : Ty) (value : Int64) : Ty :=
  if !written.isAbsent then written
  else if expected.isNumeric || expected.isPointer then expected
  else if value.toInt < -0x80000000 || 0x80000000 ≤ value.toInt then .builtin .i64
  else .i32

def floatType (written expected : Ty) : Ty :=
  if !written.isAbsent then written
  else if expected.isFloat then expected
  else .builtin .f64

def isLiteral : Tree → Bool
  | .number _ _ | .float _ _ => true
  | _ => false

/-- The type of an operation on operands of two types, if it is defined on them. -/
def resultOf (op : Operator) (l r : Ty) : Option Ty :=
  match op with
  | .relation relation =>
    if !l.same r then none
    else if l.isNumeric || l.isPointer then some .bool
    else if l.isBuiltin .bool && (relation = .eq || relation = .ne) then some .bool
    else none
  | .arith arith =>
    if l.isPointer && (arith = .add || arith = .sub) && r.isInteger then some l
    else if l.isPointer && arith = .sub && l.same r then some .i32
    else if !l.same r then none
    else
      match arith with
      | .add | .sub | .mul | .div => if l.isNumeric then some l else none
      | .rem | .shl | .shr => if l.isInteger then some l else none
      | .and | .or | .xor => if l.isInteger || l.isBuiltin .bool then some l else none
  | _ => none

def requireResult (pos : Position) (op : Operator) (l r : Ty) : Check Ty := do
  match resultOf op l r with
  | some t => return t
  | none => fail pos (.operatorUndefined op.text (← text l) (← text r))

/-- A literal on the left takes its type from the other operand, which is then checked first. -/
def binary (info : TreeInfo) (op : Operator) (left right : Checker) (expected : Ty) :
    Check Tree := do
  if op = .both || op = .either then
    let l ← Check.condition left
    let r ← Check.condition right
    return .binary { info with type := .bool } op l r
  else
    let hint := if op.isComparison then .absent else expected
    let (l, r) ←
      if isLiteral left.node && !isLiteral right.node then do
        let r ← right.check (.value hint)
        let l ← left.check (.value r.type.unwrap)
        pure (l, r)
      else do
        let l ← left.check (.value hint)
        let t := l.type.unwrap
        let r ← right.check (.value (if t.isPointer && !op.isComparison then .i32 else t))
        pure (l, r)
    let t ← requireResult info.pos op l.type.unwrap r.type.unwrap
    return .binary { info with type := t } op l r

def unary (info : TreeInfo) (op : Operator) (operand : Checker) (expected : Ty) : Check Tree := do
  let refuse : Check Tree := fail info.pos (.unaryUndefined op.text)
  match op with
  | .not => return .unary { info with type := .bool } op (← Check.condition operand)
  | .arith .sub =>
    let x ← operand.check (.value expected)
    let t := x.type.unwrap
    if t.isNumeric then return .unary { info with type := t } op x else refuse
  | .complement =>
    let x ← operand.check (.value expected)
    let t := x.type.unwrap
    if t.isInteger then return .unary { info with type := t } op x else refuse
  | _ => refuse

def arguments : List Ty → List Checker → Check (List Tree)
  | t :: types, arg :: args => do
    let tree ← Check.fitting t arg
    return tree :: (← arguments types args)
  | _, _ => return []

def call (info : TreeInfo) (callee : Tree) (args : List Checker) : Check Tree := do
  match callee with
  | .ident calleeInfo name =>
    let value ← Check.find calleeInfo.pos name
    if !value.isFunction then fail info.pos (.notFunction name)
    else
      match value.type with
      | .function _ params result =>
        if args.length ≠ params.length then
          fail info.pos (.argumentCount name params.length args.length)
        else
          let trees ← arguments params args
          return .call { info with type := result }
            (.ident { calleeInfo with type := value.type } name) trees
      | _ => fail info.pos (.notFunction name)
  | _ => fail info.pos .calleeNotNamed

def member (info : TreeInfo) (value : Checker) (name : String) : Check Tree := do
  let base ← value.check (.value .absent)
  let table := (← get).table
  let (viaPointer, aggregate) := match base.type.unwrap with
    | .pointer _ elem => (true, elem.unwrap)
    | t => (false, t)
  if !table.isStruct aggregate && !table.isUnion aggregate then
    fail info.pos (.hasNoFields (← text aggregate))
  else
    match table.field? aggregate name with
    | none => fail info.pos (.hasNoField (← text aggregate) name)
    | some field =>
      let t := if viaPointer || base.type.isLocation then .location field else field
      return .member { info with type := t } base name

def subscript (info : TreeInfo) (array index : Checker) : Check Tree := do
  let base ← array.check (.value .absent)
  let i ← index.check (.value .i32)
  if !i.type.unwrap.isInteger then
    fail index.node.pos (.indexType (← text i.type.unwrap))
  else
    match base.type.unwrap with
    | .array _ _ elem =>
      let t := if base.type.isLocation then .location elem else elem
      return .subscript { info with type := t } base i
    | .pointer _ elem => return .subscript { info with type := .location elem } base i
    | t => fail info.pos (.notIndexable (← text t))

def deref (info : TreeInfo) (pointer : Checker) : Check Tree := do
  let p ← pointer.check (.value .absent)
  match p.type.unwrap with
  | .pointer _ elem => return .deref { info with type := .location elem } p
  | t => fail info.pos (.notPointer (← text t))

def addressOf (info : TreeInfo) (operand : Checker) : Check Tree := do
  let x ← operand.check (.value .absent)
  if !x.type.isLocation then fail info.pos .notAddressable
  else
    let state ← get
    let (table, t) := state.table.pointerTo x.type.unwrap
    set { state with table := table }
    return .addressOf { info with type := t } x

def cast (info : TreeInfo) (value : Checker) (target : Ty) : Check Tree := do
  let x ← value.check (.value .absent)
  let source := x.type.unwrap
  if (source.isScalar && target.isScalar) || source.same target then
    return .cast { info with type := target } x target
  else fail info.pos (.notConvertible (← text source) (← text target))

def arrayLit (info : TreeInfo) (values : List Checker) (expected : Ty) : Check Tree := do
  match expected with
  | .array _ (some length) elem =>
    if (values.length : Int) ≠ length.toInt then
      fail info.pos (.arrayLiteralLength values.length (← text expected) length)
    else
      let trees ← values.mapM (Check.fitting elem)
      return .arrayLit { info with type := expected } trees
  | _ => fail info.pos .arrayLiteralType

/-- The written fields of a struct by name: each is a field of the type and written once. -/
def writtenFields (type : Ty) :
    List (String × Checker) → List (String × Checker) → Check (List (String × Checker))
  | [], seen => return seen
  | (name, value) :: rest, seen => do
    if ((← get).table.field? type name).isNone then
      fail value.node.pos (.hasNoField (← text type) name)
    else if (seen.lookup name).isSome then fail value.node.pos (.fieldGivenTwice name)
    else writtenFields type rest ((name, value) :: seen)

/-- The value of each field of a struct, in the order of its fields. -/
def fieldValues (pos : Position) (type : Ty) (written : List (String × Checker)) :
    List (String × Ty) → Check (List Tree)
  | [] => return []
  | (name, t) :: rest => do
    match written.lookup name with
    | none => fail pos (.fieldMissing (← text type) name)
    | some value =>
      let tree ← Check.fitting t value
      return tree :: (← fieldValues pos type written rest)

/-- A struct literal is brought into the order of the fields of its type. -/
def structLit (info : TreeInfo) (names : List String) (values : List Checker) (expected : Ty) :
    Check Tree := do
  let table := (← get).table
  match table.aggregate? expected with
  | some aggregate =>
    if aggregate.union then fail info.pos .structLiteralType
    else
      let written ← writtenFields expected (names.zip values) []
      let trees ← fieldValues info.pos expected written aggregate.fields.bindings
      return .structLit { info with type := expected } aggregate.fields.names trees
  | none => fail info.pos .structLiteralType

def ident (info : TreeInfo) (name : String) : Check Tree := do
  let value ← Check.find info.pos name
  if value.isFunction then fail info.pos (.functionAsValue name)
  else return .ident { info with type := .location value.type } name

def varDecl (info : TreeInfo) (name : String) (declared : Ty) (init : Checker) : Check Tree := do
  let (t, tree) ←
    if !init.node.isMissing then
      if !declared.isAbsent then do
        let tree ← Check.fitting declared init
        pure (declared, tree)
      else do
        let tree ← init.check (.value .absent)
        pure (tree.type.unwrap, tree)
    else if declared.isAbsent then fail info.pos (.variableNeedsType name)
    else pure (declared, Tree.missing)
  if t.isVoid || t.isFunction then fail info.pos (.variableType name (← text t))
  else
    Check.bind info.pos name ⟨t, false, info.pos⟩
    return .varDecl { info with type := t } name declared tree

def localDecl (info : TreeInfo) (name : String) (declared : Ty) (init : Checker) :
    Check Tree := do
  let tree ← varDecl info name declared init
  if (← get).table.holdsUnion tree.type then fail info.pos (.localHoldsUnion name)
  else return tree

/-- Checks a part that may be left out, as a statement. -/
def optional (checker : Checker) : Check Tree :=
  if checker.node.isMissing then return .missing else checker.check .statement

def assign (info : TreeInfo) (op : Operator) (target value : Checker) : Check Tree := do
  let lhs ← target.check (.value .absent)
  if !lhs.type.isLocation then fail target.node.pos .notAssignable
  else
    let t := lhs.type.unwrap
    if (← get).table.isUnion t then fail target.node.pos .wholeUnion
    else if op = .assign then
      return .assign { info with type := .void } op lhs (← Check.fitting t value)
    else
      match op.underlying? with
      | none => throw (.pipeline info.pos (.unknownAssignment op.text))
      | some arith =>
        let rhs ← value.check (.value (if t.isPointer then .i32 else t))
        let result ← requireResult info.pos (.arith arith) t rhs.type.unwrap
        Check.expect info.pos t result
        return .assign { info with type := .void } op lhs rhs

def ret (info : TreeInfo) (value : Checker) : Check Tree := do
  match (← read).function with
  | none => fail info.pos .returnOutside
  | some (name, result) =>
    if value.node.isMissing then
      if result.isVoid then return .ret { info with type := .void } .missing
      else fail info.pos (.mustReturn name (← text result))
    else if result.isVoid then fail info.pos (.returnsNothing name)
    else return .ret { info with type := .void } (← Check.fitting result value)

def caseValues (pos : Position) : List Int64 → (seen : List Int64) → Check (List Int64)
  | [], seen => return seen
  | value :: rest, seen =>
    if seen.contains value then fail pos (.duplicateCase value)
    else caseValues pos rest (value :: seen)

def caseList : (seen : List Int64) → List Checker → Check (List Tree)
  | _, [] => return []
  | seen, c :: rest => do
    let values := match c.node with
      | .case _ values _ => values
      | _ => []
    let seen ← caseValues c.node.pos values seen
    let tree ← c.check .branch
    return tree :: (← caseList seen rest)

def switch (info : TreeInfo) (selector : Checker) (cases : List Checker) (fallback : Checker) :
    Check Tree := do
  let s ← selector.check (.value .absent)
  if !s.type.unwrap.isInteger then
    fail selector.node.pos (.switchType (← text s.type.unwrap))
  else
    Check.inSwitch do
      let trees ← caseList [] cases
      return .switch { info with type := .void } s trees (← optional fallback)

def ifStmt (info : TreeInfo) (cond yes no : Checker) : Check Tree := do
  let c ← Check.condition cond
  let y ← optional yes
  return .ifElse { info with type := .void } c y (← optional no)

/-- A conditional value: both branches have the type of the first. -/
def ifValue (info : TreeInfo) (cond yes no : Checker) (expected : Ty) : Check Tree := do
  let c ← Check.condition cond
  if no.node.isMissing then fail info.pos .valueNeedsElse
  else
    let y ← yes.check (.value expected)
    let t := y.type.unwrap
    return .ifElse { info with type := t } c y (← Check.fitting t no)

def blockStmt (info : TreeInfo) (stmts : List Checker) : Check Tree := do
  let trees ← Check.inLevel (stmts.mapM optional)
  return .block { info with type := .void } trees

/-- A block as a value has the type of its last expression. -/
def blockValue (info : TreeInfo) (stmts : List Checker) (expected : Ty) : Check Tree := do
  match stmts.getLast? with
  | none => fail info.pos .emptyValue
  | some last =>
    Check.inLevel do
      let trees ← stmts.dropLast.mapM optional
      let tree ← last.check (.value expected)
      return .block { info with type := tree.type.unwrap } (trees ++ [tree])

end Typing

mutual

/-- Checks a node for its use and gives it, and all nodes in it, their types. -/
def Tree.check : Tree → Use → Check Tree
  | .number info value, use =>
    return .number { info with type := Typing.numberType info.type use.expected value } value
  | .float info value, use =>
    return .float { info with type := Typing.floatType info.type use.expected } value
  | .bool info value, _ => return .bool { info with type := .bool } value
  | .ident info name, _ => Typing.ident info name
  | .binary info op left right, use =>
    Typing.binary info op ⟨left, left.check⟩ ⟨right, right.check⟩ use.expected
  | .unary info op operand, use => Typing.unary info op ⟨operand, operand.check⟩ use.expected
  | .call info callee args, _ => Typing.call info callee (Tree.checkers args)
  | .member info value name, _ => Typing.member info ⟨value, value.check⟩ name
  | .subscript info array index, _ =>
    Typing.subscript info ⟨array, array.check⟩ ⟨index, index.check⟩
  | .deref info pointer, _ => Typing.deref info ⟨pointer, pointer.check⟩
  | .addressOf info operand, _ => Typing.addressOf info ⟨operand, operand.check⟩
  | .cast info value target, _ => Typing.cast info ⟨value, value.check⟩ target
  | .structLit info names values, use =>
    Typing.structLit info names (Tree.checkers values) use.expected
  | .arrayLit info values, use => Typing.arrayLit info (Tree.checkers values) use.expected
  | .ifElse info cond yes no, use =>
    let cond : Checker := ⟨cond, cond.check⟩
    let yes : Checker := ⟨yes, yes.check⟩
    let no : Checker := ⟨no, no.check⟩
    if use.isStatement then Typing.ifStmt info cond yes no
    else Typing.ifValue info cond yes no use.expected
  | .block info stmts, use =>
    if use.isStatement then Typing.blockStmt info (Tree.checkers stmts)
    else Typing.blockValue info (Tree.checkers stmts) use.expected
  | .case info values body, .branch =>
    return .case { info with type := .void } values (← Typing.optional ⟨body, body.check⟩)
  | .varDecl info name declared init, .statement =>
    Typing.localDecl info name declared ⟨init, init.check⟩
  | .assign info op target value, .statement =>
    Typing.assign info op ⟨target, target.check⟩ ⟨value, value.check⟩
  | .whileLoop info cond body, .statement => do
    let c ← Check.condition ⟨cond, cond.check⟩
    return .whileLoop { info with type := .void } c
      (← Check.inLoop (Typing.optional ⟨body, body.check⟩))
  | .loop info body, .statement =>
    return .loop { info with type := .void }
      (← Check.inLoop (Typing.optional ⟨body, body.check⟩))
  | .switch info selector cases fallback, .statement =>
    Typing.switch info ⟨selector, selector.check⟩ (Tree.checkers cases)
      ⟨fallback, fallback.check⟩
  | .break info, .statement => do
    if (← read).inBreakable then return .break { info with type := .void }
    else fail info.pos .breakOutside
  | .continue info, .statement => do
    if (← read).inLoop then return .continue { info with type := .void }
    else fail info.pos .continueOutside
  | .ret info value, .statement => Typing.ret info ⟨value, value.check⟩
  | other, _ => fail other.pos (.notExpression other.kindName)

def Tree.checkers : List Tree → List Checker
  | [] => []
  | tree :: rest => ⟨tree, tree.check⟩ :: Tree.checkers rest

end

namespace Typing

def importDecl (tree : Tree) : Check Tree := do
  match tree with
  | .importDecl info source field name signature =>
    if !signature.isFunction then fail info.pos (.importNotFunction name)
    else
      Check.bind info.pos name ⟨signature, true, info.pos⟩
      return .importDecl { info with type := signature } source field name signature
  | other => return other

def declaredType : Tree → Ty
  | .varDecl _ _ declared _ => declared
  | _ => .absent

/-- Declares a function by its signature, before any body is checked. -/
def signature (tree : Tree) : Check Tree := do
  match tree with
  | .funcDecl info name params body result exprBody =>
    let types := params.map declaredType
    let state ← get
    let (table, t) := state.table.functionFrom types result
    set { state with table := table }
    Check.bind info.pos name ⟨t, true, info.pos⟩
    let params := params.map (fun param => param.withType (declaredType param))
    return .funcDecl { info with type := t } name params body result exprBody
  | other => return other

def globalDecl (tree : Tree) : Check Tree :=
  match tree with
  | .varDecl info name declared init => varDecl info name declared ⟨init, init.check⟩
  | other => return other

def parameter (tree : Tree) : Check Unit := do
  match tree with
  | .varDecl info name declared _ =>
    if (← get).table.holdsUnion declared then fail info.pos (.parameterHoldsUnion name)
    else Check.bind info.pos name ⟨declared, false, info.pos⟩
  | _ => return

def functionBody (tree : Tree) : Check Tree := do
  match tree with
  | .funcDecl info name params body result exprBody =>
    let returned := if result.isAbsent then .void else result
    withReader (fun context => { context with function := some (name, returned) })
      (Check.inLevel do
        params.forM parameter
        if (← get).table.holdsUnion returned then fail info.pos (.returnsUnion name)
        else if exprBody then
          let checked ← Check.fitting returned ⟨body, body.check⟩
          return .funcDecl info name params checked result exprBody
        else
          let checked ← optional ⟨body, body.check⟩
          return .funcDecl info name params checked result exprBody)
  | other => return other

def exportName (pos : Position) (name : String) : Check Unit := do
  if ((← get).names.lookup name).isSome then return
  else fail pos (.exportUndeclared name)

def module (root : Tree) : Check Tree := do
  match root with
  | .module info imports decls exports =>
    let imports ← imports.mapM importDecl
    let decls ← decls.mapM signature
    let decls ← decls.mapM globalDecl
    let decls ← decls.mapM functionBody
    exports.forM (exportName info.pos)
    return .module { info with type := .void } imports decls exports
  | other => throw (.pipeline other.pos (.checkerExpectsModule other.kindName))

end Typing

namespace Program

/-- Checks a program: the same tree with the type of every node. -/
def check (program : Program) : Except Failure Program := do
  let (root, state) ← ((Typing.module program.root).run {}).run ⟨program.table, [Level.empty], []⟩
  return ⟨root, state.table⟩

/-- The names a module exports, sorted, each once. -/
def exports (program : Program) : List String :=
  match program.root with
  | .module _ _ _ exports => (exports.mergeSort (fun a b => !(b < a))).eraseDups
  | _ => []

end Program

end TreeWasm
