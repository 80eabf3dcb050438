import TreeWasm.Document.Outline
import TreeWasm.Program.Tree
import TreeWasm.Typed.Spelling

/-! # Reading program trees

From an outline to a program tree. An expression is a mapping whose first key names its kind, or a
scalar; some mappings stand for statements only. What a document node means depends on where it
stands, so a node is read once into all the roles it can play, by recursion on the document, and
its surroundings choose one.
-/

namespace TreeWasm

open Document (DocNode Outline TypeEntry ImportEntry)

/-- The file being read and the types it has declared. -/
structure ReadContext where
  file : Int
  declared : Level Ty

abbrev Read := ReaderT ReadContext (StateT TypeTable (Except Failure))

namespace Read

def place (node : DocNode) : Read Position := do
  return ⟨(← read).file, node.line, node.column, node.text.utf8ByteSize, node.text⟩

def info (node : DocNode) : Read TreeInfo := do
  return { pos := ← place node }

def fail {α : Type} (node : DocNode) (fault : ReadingFault) : Read α := do
  throw (.reading (← place node) fault)

/-- A part that is known to be there. -/
def present {α : Type} (part? : Option α) (defect : PipelineDefect) : Read α :=
  match part? with
  | some part => return part
  | none => throw (.pipeline .nowhere defect)

def type (node : DocNode) : Read Ty := do
  if !node.isScalar || node.text = "" then fail node .expectedType
  else
    match Spelling.read (← read).declared node.text with
    | .error why => fail node (.invalidType node.text why)
    | .ok t =>
      let (table, t) := (← get).renumber t
      set table
      return t

/-- An integer literal; one above the signed range stands for the same bits. -/
def integer (node : DocNode) : Read Int64 :=
  match Number.readSigned 64 node.text.toList with
  | .ok value => return Int64.ofInt value
  | .error _ =>
    match Number.readUnsigned 64 node.text.toList with
    | .ok value => return Int64.ofNat value
    | .error _ => fail node (.invalidInteger node.text)

def operator (node : DocNode) : Read Operator :=
  match Operator.ofText? node.text with
  | some op => return op
  | none => fail node (.unknownOperator node.text)

def scalar (node : DocNode) : Read Tree := do
  let info ← info node
  match node.tag? with
  | some .int => return .number info (← integer node)
  | some .float =>
    match Number.readDouble node.text.toList with
    | .ok value => return .float info value
    | .error _ => fail node (.invalidNumber node.text)
  | some .bool => return .bool info (node.text = "true")
  | some .text => return .ident info node.text
  | _ => fail node (.unexpectedValue node.text)

end Read

/-- A document node in all its roles. -/
structure Reading where
  node : DocNode
  /-- The items of a list; the keys and values of a mapping in turn. -/
  content : List Reading
  expr : Read Tree
  stmt : Read Tree
  /-- As a list of statements. -/
  block : Read Tree
  /-- As the branch of a conditional value: an expression, or statements that end in one. -/
  value : Read Tree

namespace Reading

open Read (fail info)

def absent : Reading :=
  let refuse := fail .absent .expectedKind
  ⟨.absent, [], refuse, refuse, refuse, refuse⟩

def text (reading : Reading) : String := reading.node.text

def item (content : List Reading) (index : Nat) : Read Reading :=
  Read.present content[index]? (.lostPart index)

def pairUp : List Reading → List (Reading × Reading)
  | key :: value :: rest => (key, value) :: pairUp rest
  | _ => []

/-- The entries of a mapping, or of a list of mappings with one entry each. -/
def pairsOf (node : DocNode) (content : List Reading) : Read (List (Reading × Reading)) :=
  match node with
  | .mapping _ _ _ => return pairUp content
  | .sequence _ _ _ =>
    content.mapM (fun item =>
      match item.node, item.content with
      | .mapping _ _ _, [key, value] => return (key, value)
      | _, _ => fail item.node .expectedEntry)
  | _ => fail node .expectedEntries

def pairs (reading : Reading) : Read (List (Reading × Reading)) :=
  pairsOf reading.node reading.content

/-- The values of a node's entries by key; of a repeated key the last one counts. -/
def fieldsOf (node : DocNode) (content : List Reading) (allowed : List String) :
    Read (Level Reading) := do
  (← pairsOf node content).foldlM (fun fields (key, value) =>
    if allowed.contains key.text then return fields.define key.text value
    else fail key.node (.unexpectedKey key.text)) Level.empty

/-- The value of a key that is known to be there. -/
def field (fields : Level Reading) (key : String) : Read Reading :=
  Read.present (fields.find? key) (.lostEntry key)

def required (node : DocNode) (fields : Level Reading) (key : String) : Read Reading :=
  match fields.find? key with
  | some value => return value
  | none => fail node (.missingKey key)

/-- The first key of a mapping, which says what it stands for. -/
def kindOf (node : DocNode) (content : List Reading) : Read String :=
  match node, content with
  | .mapping _ _ _, key :: _ => return key.text
  | _, _ => fail node .expectedKind

def operands (reading : Reading) : Read (Tree × Tree) :=
  if reading.node.isSequence && reading.content.length = 2 then do
    let first ← (← item reading.content 0).expr
    return (first, ← (← item reading.content 1).expr)
  else fail reading.node (.operandCount 2)

def listed (node : DocNode) (form : ListedForm) (count : Nat) (reading : Reading) :
    Read (List Reading) :=
  if reading.node.isSequence && reading.content.length = count then return reading.content
  else fail node (.listedForm form)

def ofScalar (node : DocNode) : Reading :=
  let expr := Read.scalar node
  let stmt : Read Tree :=
    match node.text with
    | "break" => return .break (← info node)
    | "continue" => return .continue (← info node)
    | "return" => return .ret (← info node) .missing
    | _ => expr
  ⟨node, [], expr, stmt, do return .block (← info node) [← stmt], expr⟩

def ofSequence (node : DocNode) (items : List Reading) : Reading :=
  let refuse := fail node .expectedKind
  let block : Read Tree := do
    return .block (← info node) (← items.mapM Reading.stmt)
  let value : Read Tree :=
    match items.getLast? with
    | none => fail node .emptyValue
    | some last => do
      let stmts ← items.dropLast.mapM Reading.stmt
      return .block (← info node) (stmts ++ [← last.expr])
  ⟨node, items, refuse, refuse, block, value⟩

def literal (node : DocNode) (content : List Reading) (kind : String) : Read Tree := do
  let fields ← fieldsOf node content [kind, "type"]
  let lit ← Read.scalar (← field fields kind).node
  let lit := match kind, lit with
    | "float", .number info value => .float info (.ofFloat value.toFloat)
    | _, lit => lit
  match fields.find? "type" with
  | some type => return lit.withType (← Read.type type.node)
  | none => return lit

/-- The value of the only key of a mapping. -/
def only (node : DocNode) (content : List Reading) (key : String) : Read Reading := do
  field (← fieldsOf node content [key]) key

def callExpr (node : DocNode) (content : List Reading) : Read Tree := do
  let fields ← fieldsOf node content ["call", "args"]
  let args ← match fields.find? "args" with
    | some args => args.content.mapM Reading.expr
    | none => pure []
  let callee ← field fields "call"
  return .call (← info node) (.ident (← info callee.node) callee.text) args

def ifExpr (node : DocNode) (content : List Reading) : Read Tree := do
  let fields ← fieldsOf node content ["if", "then", "else"]
  let no ← match fields.find? "else" with
    | some no => no.value
    | none => pure .missing
  let cond ← (← field fields "if").expr
  let yes ← (← required node fields "then").value
  return .ifElse (← info node) cond yes no

def structExpr (node : DocNode) (content : List Reading) : Read Tree := do
  let entries ← (← only node content "struct").pairs
  let values ← entries.mapM (fun entry => entry.2.expr)
  return .structLit (← info node) (entries.map (fun entry => entry.1.text)) values

def mappingExpr (node : DocNode) (content : List Reading) : Read Tree := do
  let kind ← kindOf node content
  match kind with
  | "int" | "float" => literal node content kind
  | "bool" => Read.scalar (← only node content "bool").node
  | "ident" =>
    let name ← only node content "ident"
    return .ident (← info name.node) name.text
  | "binary" =>
    let parts ← listed node .binary 3 (← only node content "binary")
    let op ← item parts 0
    let operator ← Read.operator op.node
    let left ← (← item parts 1).expr
    return .binary (← info op.node) operator left (← (← item parts 2).expr)
  | "unary" =>
    let parts ← listed node .unary 2 (← only node content "unary")
    let op ← item parts 0
    let operator ← Read.operator op.node
    return .unary (← info op.node) operator (← (← item parts 1).expr)
  | "call" => callExpr node content
  | "field" =>
    let parts ← listed node .field 2 (← only node content "field")
    let name ← item parts 1
    return .member (← info name.node) (← (← item parts 0).expr) name.text
  | "index" =>
    let (array, index) ← (← only node content "index").operands
    return .subscript (← info node) array index
  | "deref" => return .deref (← info node) (← (← only node content "deref").expr)
  | "addr" => return .addressOf (← info node) (← (← only node content "addr").expr)
  | "cast" =>
    let parts ← listed node .cast 2 (← only node content "cast")
    let value ← (← item parts 1).expr
    return .cast (← info node) value (← Read.type (← item parts 0).node)
  | "struct" => structExpr node content
  | "array" =>
    let values ← (← only node content "array").content.mapM Reading.expr
    return .arrayLit (← info node) values
  | "if" => ifExpr node content
  | "block" => (← only node content "block").value
  | _ => fail node (.unknownExpression kind)

def varDecl (node : DocNode) (content : List Reading) : Read Tree := do
  let fields ← fieldsOf node content ["var", "type", "init"]
  let type ← match fields.find? "type" with
    | some type => Read.type type.node
    | none => pure .absent
  let init ← match fields.find? "init" with
    | some init => init.expr
    | none => pure .missing
  let name ← field fields "var"
  return .varDecl (← info name.node) name.text type init

def assignStmt (node : DocNode) (content : List Reading) : Read Tree := do
  let fields ← fieldsOf node content ["assign", "op"]
  let (target, value) ← (← field fields "assign").operands
  let op ← match fields.find? "op" with
    | none => pure Operator.assign
    | some op => do
      let operator ← Read.operator op.node
      match operator with
      | .assign | .compound _ => pure operator
      | _ => fail op.node (.notAssignment op.text)
  return .assign (← info node) op target value

def caseStmt (reading : Reading) : Read Tree := do
  let fields ← fieldsOf reading.node reading.content ["case", "do"]
  match fields.find? "case" with
  | none => fail reading.node .caseNeedsValues
  | some values =>
    let numerals := if values.node.isSequence then values.content else [values]
    let numbers ← numerals.mapM (fun numeral => Read.integer numeral.node)
    let body ← (← required reading.node fields "do").block
    return .case (← info reading.node) numbers body

def switchStmt (node : DocNode) (content : List Reading) : Read Tree := do
  let fields ← fieldsOf node content ["switch", "cases", "default"]
  let cases ← match fields.find? "cases" with
    | some cases => cases.content.mapM caseStmt
    | none => pure []
  let fallback ← match fields.find? "default" with
    | some fallback => fallback.block
    | none => pure .missing
  return .switch (← info node) (← (← field fields "switch").expr) cases fallback

/-- A conditional statement has a list for its branch; any other is a value. -/
def ifStmt (node : DocNode) (content : List Reading) (expr : Read Tree) : Read Tree := do
  let fields ← fieldsOf node content ["if", "then", "else"]
  let yes ← required node fields "then"
  if !yes.node.isSequence then expr
  else
    let no ← match fields.find? "else" with
      | some no => no.block
      | none => pure .missing
    let cond ← (← field fields "if").expr
    return .ifElse (← info node) cond (← yes.block) no

def mappingStmt (node : DocNode) (content : List Reading) (expr : Read Tree) : Read Tree := do
  match ← kindOf node content with
  | "var" => varDecl node content
  | "return" =>
    let value ← only node content "return"
    if value.node.isNull then return .ret (← info node) .missing
    else return .ret (← info node) (← value.expr)
  | "assign" => assignStmt node content
  | "while" =>
    let fields ← fieldsOf node content ["while", "do"]
    let cond ← (← field fields "while").expr
    return .whileLoop (← info node) cond (← (← required node fields "do").block)
  | "loop" => return .loop (← info node) (← (← only node content "loop").block)
  | "break" => return .break (← info node)
  | "continue" => return .continue (← info node)
  | "switch" => switchStmt node content
  | "if" => ifStmt node content expr
  | "block" => (← only node content "block").block
  | _ => expr

def ofMapping (node : DocNode) (content : List Reading) : Reading :=
  let expr := mappingExpr node content
  let stmt := mappingStmt node content expr
  ⟨node, content, expr, stmt, do return .block (← info node) [← stmt], expr⟩

end Reading

mutual

def Reading.ofNode : DocNode → Reading
  | .absent => .absent
  | .scalar line column text tag => .ofScalar (.scalar line column text tag)
  | .sequence line column items =>
    .ofSequence (.sequence line column items) (Reading.ofNodes items)
  | .mapping line column entries =>
    .ofMapping (.mapping line column entries) (Reading.ofEntries entries)

def Reading.ofNodes : List DocNode → List Reading
  | [] => []
  | node :: rest => Reading.ofNode node :: Reading.ofNodes rest

def Reading.ofEntries : List (DocNode × DocNode) → List Reading
  | [] => []
  | (key, value) :: rest =>
    Reading.ofNode key :: Reading.ofNode value :: Reading.ofEntries rest

end

namespace Reading

open Read (fail info)

def parameters (reading : Reading) : Read (List Tree) := do
  (← reading.pairs).mapM (fun (param, type) => do
    return .varDecl (← info param.node) param.text (← Read.type type.node) .missing)

def funcDecl (node : DocNode) (content : List Reading) : Read Tree := do
  let fields ← fieldsOf node content ["fun", "params", "result", "expr", "body"]
  let name ← field fields "fun"
  let params ← match fields.find? "params" with
    | some params => params.parameters
    | none => pure []
  let result ← match fields.find? "result" with
    | some result => Read.type result.node
    | none => pure .absent
  match fields.find? "expr" with
  | some expr =>
    return .funcDecl (← info name.node) name.text params (← expr.expr) result true
  | none =>
    match fields.find? "body" with
    | none => fail name.node (.functionNeedsBody name.text)
    | some body =>
      return .funcDecl (← info name.node) name.text params (← body.block) result false

def decl (reading : Reading) : Read Tree := do
  let kind ← kindOf reading.node reading.content
  match kind with
  | "var" => varDecl reading.node reading.content
  | "fun" => funcDecl reading.node reading.content
  | _ => fail reading.node (.expectedDeclaration kind)

end Reading

namespace Program

open Read (fail)

/-- Adds a field to an aggregate. -/
def readField (id : Nat) (fields : Level Ty) (entry : Reading × Reading) : Read (Level Ty) := do
  let (key, value) := entry
  if fields.contains key.text then fail key.node (.fieldDefinedTwice key.text)
  else
    let fields := fields.define key.text (← Read.type value.node)
    modify (fun table => table.setFields id fields)
    return fields

/-- Declares a type. It is known before its fields are read, so that they may point back at it. -/
def readTypeEntry (declared : Level Ty) (entry : TypeEntry) : Read (Level Ty) :=
  withReader (fun context => { context with declared := declared }) do
    if declared.contains entry.name || (Builtin.ofText? entry.name).isSome then
      fail entry.struct (.typeDefinedTwice entry.name)
    else if entry.struct.isAbsent && entry.union.isAbsent then
      fail .absent (.typeNeedsFields entry.name)
    else
      let union := entry.struct.isAbsent
      let node := if union then entry.union else entry.struct
      let id := (← get).aggregates.size
      let (table, t) := (← get).add ⟨entry.name, union, .empty⟩
      set table
      let declared := declared.define entry.name t
      withReader (fun context => { context with declared := declared }) do
        let entries ← (Reading.ofNode node).pairs
        let _ ← entries.foldlM (readField id) Level.empty
        return declared

/-- An import. Without a module it comes from `env`, without a name it is called as its field. -/
def readImportEntry (entry : ImportEntry) : Read Tree := do
  if entry.field = "" then fail entry.type .importNeedsField
  else
    let module := if entry.module = "" then "env" else entry.module
    let name := if entry.name = "" then entry.field else entry.name
    return .importDecl (← Read.info entry.type) module entry.field name (← Read.type entry.type)

def readModule (outline : Outline) : Read Tree := do
  let declared ← outline.types.foldlM readTypeEntry Level.empty
  withReader (fun context => { context with declared := declared }) do
    let imports ← outline.imports.mapM readImportEntry
    let decls ← outline.decls.mapM (fun node => (Reading.ofNode node).decl)
    let info : TreeInfo := { pos := ⟨(← read).file, 1, 1, 0, ""⟩ }
    return .module info imports decls outline.exports

def ofOutline (file : Int) (outline : Outline) : Except Failure Program := do
  let (root, table) ← ((readModule outline).run ⟨file, .empty⟩).run .empty
  return ⟨root, table⟩

end Program

inductive SourceFault
  /-- The text is no well-formed document of the right shape. -/
  | document
  | failure (failure : Failure)
  deriving Repr

def Program.ofChars (file : Int) (text : List Char) : Except SourceFault Program :=
  match Outline.ofChars? text with
  | none => .error .document
  | some outline => (Program.ofOutline file outline).mapError .failure

def Program.ofText (file : Int) (text : String) : Except SourceFault Program :=
  Program.ofChars file text.toList

end TreeWasm
