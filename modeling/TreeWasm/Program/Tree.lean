import TreeWasm.Number.Double
import TreeWasm.Operator
import TreeWasm.Source.Position
import TreeWasm.Typed.Type

/-! # Program trees

A program as a tree. Every node knows its place in the source and, once it is known, its type.
Declarations, statements and expressions are one family, since blocks and conditionals stand both
for statements and for values.
-/

namespace TreeWasm

structure TreeInfo where
  pos : Position
  type : Ty := .absent
  deriving Repr

inductive Tree
  | missing
  | number (info : TreeInfo) (value : Int64)
  | float (info : TreeInfo) (value : Double)
  | bool (info : TreeInfo) (value : Bool)
  | ident (info : TreeInfo) (name : String)
  | assign (info : TreeInfo) (op : Operator) (target value : Tree)
  | binary (info : TreeInfo) (op : Operator) (left right : Tree)
  | unary (info : TreeInfo) (op : Operator) (operand : Tree)
  | call (info : TreeInfo) (callee : Tree) (args : List Tree)
  | deref (info : TreeInfo) (pointer : Tree)
  | addressOf (info : TreeInfo) (operand : Tree)
  | subscript (info : TreeInfo) (array index : Tree)
  | member (info : TreeInfo) (value : Tree) (name : String)
  | cast (info : TreeInfo) (value : Tree) (target : Ty)
  | structLit (info : TreeInfo) (names : List String) (values : List Tree)
  | arrayLit (info : TreeInfo) (values : List Tree)
  | module (info : TreeInfo) (imports decls : List Tree) (exports : List String)
  | importDecl (info : TreeInfo) (source field name : String) (signature : Ty)
  | funcDecl (info : TreeInfo) (name : String) (params : List Tree) (body : Tree) (result : Ty)
      (exprBody : Bool)
  | varDecl (info : TreeInfo) (name : String) (declared : Ty) (init : Tree)
  | ifElse (info : TreeInfo) (cond yes no : Tree)
  | whileLoop (info : TreeInfo) (cond body : Tree)
  | loop (info : TreeInfo) (body : Tree)
  | ret (info : TreeInfo) (value : Tree)
  | block (info : TreeInfo) (stmts : List Tree)
  | switch (info : TreeInfo) (selector : Tree) (cases : List Tree) (fallback : Tree)
  | case (info : TreeInfo) (values : List Int64) (body : Tree)
  | break (info : TreeInfo)
  | continue (info : TreeInfo)
  deriving Repr, Inhabited

namespace Tree

def isMissing : Tree → Bool
  | missing => true
  | _ => false

def info : Tree → TreeInfo
  | missing => ⟨.unset, .absent⟩
  | number i _ | float i _ | bool i _ | ident i _ | assign i _ _ _ | binary i _ _ _ | unary i _ _
  | call i _ _ | deref i _ | addressOf i _ | subscript i _ _ | member i _ _ | cast i _ _
  | structLit i _ _ | arrayLit i _ | module i _ _ _ | importDecl i _ _ _ _
  | funcDecl i _ _ _ _ _ | varDecl i _ _ _ | ifElse i _ _ _ | whileLoop i _ _ | loop i _
  | ret i _ | block i _ | switch i _ _ _ | case i _ _ | .break i | .continue i => i

def pos (tree : Tree) : Position := tree.info.pos

def type (tree : Tree) : Ty := tree.info.type

def withInfo (i : TreeInfo) : Tree → Tree
  | missing => missing
  | number _ value => number i value
  | float _ value => float i value
  | bool _ value => bool i value
  | ident _ name => ident i name
  | assign _ op target value => assign i op target value
  | binary _ op left right => binary i op left right
  | unary _ op operand => unary i op operand
  | call _ callee args => call i callee args
  | deref _ pointer => deref i pointer
  | addressOf _ operand => addressOf i operand
  | subscript _ array index => subscript i array index
  | member _ value name => member i value name
  | cast _ value target => cast i value target
  | structLit _ names values => structLit i names values
  | arrayLit _ values => arrayLit i values
  | module _ imports decls exports => module i imports decls exports
  | importDecl _ source field name signature => importDecl i source field name signature
  | funcDecl _ name params body result exprBody => funcDecl i name params body result exprBody
  | varDecl _ name declared init => varDecl i name declared init
  | ifElse _ cond yes no => ifElse i cond yes no
  | whileLoop _ cond body => whileLoop i cond body
  | loop _ body => loop i body
  | ret _ value => ret i value
  | block _ stmts => block i stmts
  | switch _ selector cases fallback => switch i selector cases fallback
  | case _ values body => case i values body
  | .break _ => .break i
  | .continue _ => .continue i

def withType (type : Ty) (tree : Tree) : Tree :=
  tree.withInfo { tree.info with type := type }

/-- The names of the kinds of nodes, in the order of their codes. -/
def kindNames : List String :=
  ["Number", "FloatNumber", "Bool", "Ident", "Assign", "BinaryOp", "UnaryOp", "FuncCall",
    "Indirection", "AddressOf", "Subscript", "MemberAccess", "TypeCast", "StructLiteral",
    "ArrayLiteral", "Module", "Import", "FuncDecl", "VarDecl", "If", "While", "Loop", "Return",
    "Block", "Switch", "Case", "Break", "Continue"]

def kindNameOf (code : Nat) : String := kindNames.getD code "Node"

def kindName : Tree → String
  | missing => "Node"
  | number _ _ => "Number"
  | float _ _ => "FloatNumber"
  | bool _ _ => "Bool"
  | ident _ _ => "Ident"
  | assign _ _ _ _ => "Assign"
  | binary _ _ _ _ => "BinaryOp"
  | unary _ _ _ => "UnaryOp"
  | call _ _ _ => "FuncCall"
  | deref _ _ => "Indirection"
  | addressOf _ _ => "AddressOf"
  | subscript _ _ _ => "Subscript"
  | member _ _ _ => "MemberAccess"
  | cast _ _ _ => "TypeCast"
  | structLit _ _ _ => "StructLiteral"
  | arrayLit _ _ => "ArrayLiteral"
  | module _ _ _ _ => "Module"
  | importDecl _ _ _ _ _ => "Import"
  | funcDecl _ _ _ _ _ _ => "FuncDecl"
  | varDecl _ _ _ _ => "VarDecl"
  | ifElse _ _ _ _ => "If"
  | whileLoop _ _ _ => "While"
  | loop _ _ => "Loop"
  | ret _ _ => "Return"
  | block _ _ => "Block"
  | switch _ _ _ _ => "Switch"
  | case _ _ _ => "Case"
  | .break _ => "Break"
  | .continue _ => "Continue"

end Tree

structure Program where
  root : Tree
  table : TypeTable
  deriving Repr

end TreeWasm
