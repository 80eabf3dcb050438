import TreeWasm.Part
import TreeWasm.Program.Tree

/-! # Parts of program trees -/

namespace TreeWasm.Tree

def parts : Tree → Parts Tree
  | number _ v => [("v", .integer v)]
  | float _ v => [("v", .float v)]
  | bool _ v => [("v", .flag v)]
  | ident _ name => [("name", .text name)]
  | assign _ op target value =>
    [("op", .text op.text), ("lhs", .node target), ("rhs", .node value)]
  | binary _ op left right =>
    [("op", .text op.text), ("left", .node left), ("right", .node right)]
  | unary _ op operand => [("op", .text op.text), ("expr", .node operand)]
  | call _ callee args => [("fn", .node callee), ("args", .nodes args)]
  | deref _ x | addressOf _ x | ret _ x => [("expr", .node x)]
  | subscript _ array index => [("array", .node array), ("index", .node index)]
  | member _ value name => [("expr", .node value), ("member", .text name)]
  | cast _ value target => [("expr", .node value), ("type", .type target)]
  | structLit _ names values => [("names", .texts names), ("values", .nodes values)]
  | arrayLit _ values => [("values", .nodes values)]
  | module _ imports decls exports =>
    [("imports", .nodes imports), ("decls", .nodes decls), ("exports", .texts exports)]
  | importDecl _ source field name signature =>
    [("module", .text source), ("field", .text field), ("name", .text name),
      ("type", .type signature)]
  | funcDecl _ name params body result exprBody =>
    [("name", .text name), ("params", .nodes params), ("body", .node body),
      ("result", .type result), ("is_expr", .flag exprBody)]
  | varDecl _ name declared init =>
    [("name", .text name), ("type", .type declared), ("init", .node init)]
  | ifElse _ cond yes no => [("cond", .node cond), ("then", .node yes), ("else", .node no)]
  | whileLoop _ cond body => [("cond", .node cond), ("body", .node body)]
  | loop _ body => [("body", .node body)]
  | block _ stmts => [("stmts", .nodes stmts)]
  | switch _ selector cases fallback =>
    [("expr", .node selector), ("cases", .nodes cases), ("default", .node fallback)]
  | case _ values body => [("values", .integers values), ("body", .node body)]
  | missing | .break _ | .continue _ => []

end TreeWasm.Tree
