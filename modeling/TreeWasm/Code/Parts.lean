import TreeWasm.Code.Node
import TreeWasm.Part

/-! # Parts of code nodes -/

namespace TreeWasm.Node

/-- A label as a part; a block without one has the number -1. -/
def labelPart (label : Option Nat) : Part Node := .index (label.elim (-1) Int.ofNat)

def parts : Node → Parts Node
  | const32 _ v => [("v", .integer v.toInt64)]
  | const64 _ v => [("v", .integer v)]
  | constFloat _ v => [("v", .float v)]
  | binary _ op x y | compare _ op x y => [("op", .text op.text), ("x", .node x), ("y", .node y)]
  | unary _ op x => [("op", .text op.text), ("x", .node x)]
  | convert _ x | drop _ x | addressOf _ x => [("x", .node x)]
  | data _ addr offset => [("addr", .node addr), ("offset", .integer offset)]
  | scaledOffset _ ptr index size =>
    [("ptr", .node ptr), ("index", .node index), ("size", .integer size)]
  | locals _ slots => [("slots", .indices slots)]
  | ifElse _ cond yes no => [("cond", .node cond), ("then", .node yes), ("else", .node no)]
  | loop _ label body => [("label", labelPart label), ("body", .node body)]
  | block _ label children => [("label", labelPart label), ("children", .nodes children)]
  | seq _ children => [("children", .nodes children)]
  | branch _ label => [("label", .index label)]
  | branchIf _ label cond => [("label", .index label), ("cond", .node cond)]
  | branchTable _ index targets default =>
    [("index", .node index), ("targets", .indices targets), ("default", .index default)]
  | ret _ value => [("value", .node value)]
  | structLit _ fields => [("fields", .nodes fields)]
  | arrayLit _ elems => [("elems", .nodes elems)]
  | call _ func name args => [("func", .index func), ("name", .text name), ("args", .nodes args)]
  | assign _ target value => [("target", .node target), ("value", .node value)]
  | absent | unreachable _ | nop _ => []

end TreeWasm.Node
