import TreeWasm.Layout.OfType
import TreeWasm.Proofs.Typing.Kinds

/-! # Typing rules

When the types in a tree fit together, as a relation. `Tree.IsValue` is about values,
`Tree.IsStatement` about statements, which may bind names for what follows them. Both say in which
order names are used, and what each of them stands for.
-/

namespace TreeWasm

namespace Ty

/-- Whether a value of one type may stand where another one is wanted. -/
def takes (want got : Ty) : Bool := want.unwrap.same got.unwrap

theorem takes_of_eq_unwrap {want got : Ty} (h : want = got.unwrap) : want.takes got := by
  rw [takes, h, unwrap_unwrap]
  exact got.unwrap.same_self

/-- The type whose fields a value of a type has: of a pointer, the one it points to. -/
def record (t : Ty) : Ty :=
  match t.unwrap with
  | .pointer _ elem => elem.unwrap
  | other => other

end Ty

namespace Tree

/-- Whether a tree names a place: a variable, what a pointer leads to, or a part of a place. -/
def isPlace : Tree → Bool
  | .ident .. | .deref .. => true
  | .member _ base _ | .subscript _ base _ => base.isPlace || base.type.isPointer
  | _ => false

variable (table : TypeTable)

mutual

/-- The tree is a value of its type, where the given names are in sight and are used in the given
order. -/
inductive IsValue : CheckContext → Chain TypedName → List Resolution → Tree → Prop
  | number {ctx names info value} : info.type.isLocation = false → IsValue ctx names [] (.number info value)
  | float {ctx names info value} : info.type.isLocation = false → IsValue ctx names [] (.float info value)
  | bool {ctx names info value} : info.type = .bool → IsValue ctx names [] (.bool info value)
  | ident {ctx names info name value} :
      names.lookup name = some value → value.isFunction = false →
      info.type = .location value.type →
      IsValue ctx names [⟨info.pos, name, value.declared⟩] (.ident info name)
  | logical {ctx names uses uses' info op left right} :
      op = .both ∨ op = .either → IsValue ctx names uses left →
      IsValue ctx names uses' right → left.type.isBuiltin .bool → right.type.isBuiltin .bool →
      info.type = .bool → IsValue ctx names (uses ++ uses') (.binary info op left right)
  | binary {ctx names uses uses' info op left right} :
      IsValue ctx names uses left → IsValue ctx names uses' right →
      Typing.resultOf op left.type.unwrap right.type.unwrap = some info.type →
      IsValue ctx names (uses ++ uses') (.binary info op left right)
  | not {ctx names uses info operand} :
      IsValue ctx names uses operand → operand.type.isBuiltin .bool → info.type = .bool →
      IsValue ctx names uses (.unary info .not operand)
  | negate {ctx names uses info operand} :
      IsValue ctx names uses operand → operand.type.isNumeric →
      info.type = operand.type.unwrap →
      IsValue ctx names uses (.unary info (.arith .sub) operand)
  | complement {ctx names uses info operand} :
      IsValue ctx names uses operand → operand.type.isInteger →
      info.type = operand.type.unwrap →
      IsValue ctx names uses (.unary info .complement operand)
  | call {ctx names uses info calleeInfo name args value occurrence params} :
      names.lookup name = some value → value.isFunction →
      value.type = .function occurrence params info.type → info.type.isLocation = false →
      AreValues ctx names uses params args →
      IsValue ctx names (⟨calleeInfo.pos, name, value.declared⟩ :: uses)
        (.call info (.ident calleeInfo name) args)
  | member {ctx names uses info base name field} :
      IsValue ctx names uses base → table.field? base.type.record name = some field →
      field.isLocation = false →
      info.type = (if base.type.isPointer || base.type.isLocation then .location field else field) →
      IsValue ctx names uses (.member info base name)
  | element {ctx names uses uses' info base index occurrence length elem} :
      IsValue ctx names uses base → IsValue ctx names uses' index →
      base.type.unwrap = .array occurrence length elem → index.type.isInteger →
      elem.isLocation = false →
      info.type = (if base.type.isLocation then .location elem else elem) →
      IsValue ctx names (uses ++ uses') (.subscript info base index)
  | pointee {ctx names uses uses' info base index occurrence elem} :
      IsValue ctx names uses base → IsValue ctx names uses' index →
      base.type.unwrap = .pointer occurrence elem → index.type.isInteger →
      info.type = .location elem →
      IsValue ctx names (uses ++ uses') (.subscript info base index)
  | deref {ctx names uses info pointer occurrence elem} :
      IsValue ctx names uses pointer → pointer.type.unwrap = .pointer occurrence elem →
      info.type = .location elem → IsValue ctx names uses (.deref info pointer)
  | addressOf {ctx names uses info operand occurrence elem} :
      IsValue ctx names uses operand → operand.isPlace → info.type = .pointer occurrence elem →
      IsValue ctx names uses (.addressOf info operand)
  | cast {ctx names uses info value target} :
      IsValue ctx names uses value →
      (value.type.isScalar ∧ info.type.isScalar) ∨ value.type.takes info.type →
      info.type.isLocation = false → IsValue ctx names uses (.cast info value target)
  | structLit {ctx names uses info fields values id aggregate} :
      info.type = .aggregate id → table.get? id = some aggregate → aggregate.union = false →
      AreValues ctx names uses (aggregate.fields.bindings.map Prod.snd) values →
      IsValue ctx names uses (.structLit info fields values)
  | arrayLit {ctx names uses info values occurrence length elem} :
      info.type = .array occurrence (some length) elem → length.toInt = values.length →
      AreValues ctx names uses (List.replicate values.length elem) values →
      IsValue ctx names uses (.arrayLit info values)
  | ifElse {ctx names uses uses' uses'' info cond yes no} :
      IsValue ctx names uses cond → cond.type.isBuiltin .bool →
      IsValue ctx names uses' yes → IsValue ctx names uses'' no →
      info.type = yes.type.unwrap → info.type.takes no.type →
      IsValue ctx names (uses ++ uses' ++ uses'') (.ifElse info cond yes no)
  | block {ctx names inner uses uses' info init last} :
      AreStatements ctx (Level.empty :: names) uses init inner →
      IsValue ctx inner uses' last → info.type = last.type.unwrap →
      IsValue ctx names (uses ++ uses') (.block info (init ++ [last]))

/-- The trees are values of the given types, in order. -/
inductive AreValues : CheckContext → Chain TypedName → List Resolution → List Ty → List Tree → Prop
  | nil {ctx names} : AreValues ctx names [] [] []
  | cons {ctx names uses uses' t types value values} :
      IsValue ctx names uses value → t.takes value.type →
      AreValues ctx names uses' types values →
      AreValues ctx names (uses ++ uses') (t :: types) (value :: values)

/-- The tree is a statement, with the names in sight before and after it. -/
inductive IsStatement :
    CheckContext → Chain TypedName → List Resolution → Tree → Chain TypedName → Prop
  | missing {ctx names} : IsStatement ctx names [] .missing names
  | expression {ctx names uses tree} : IsValue ctx names uses tree → IsStatement ctx names uses tree names
  | ifElse {ctx names names' names'' uses uses' uses'' info cond yes no} :
      IsValue ctx names uses cond → cond.type.isBuiltin .bool →
      IsStatement ctx names uses' yes names' → IsStatement ctx names' uses'' no names'' →
      IsStatement ctx names (uses ++ uses' ++ uses'') (.ifElse info cond yes no) names''
  | block {ctx names inner uses info stmts} :
      AreStatements ctx (Level.empty :: names) uses stmts inner →
      IsStatement ctx names uses (.block info stmts) names
  | declare {ctx names info name declared} :
      names.lookupLocal name = none →
      IsStatement ctx names [] (.varDecl info name declared .missing)
        (names.define name ⟨info.type, false, info.pos⟩)
  | declareAs {ctx names uses info name declared init} :
      IsValue ctx names uses init → info.type.takes init.type →
      names.lookupLocal name = none →
      IsStatement ctx names uses (.varDecl info name declared init)
        (names.define name ⟨info.type, false, info.pos⟩)
  | assign {ctx names uses uses' info target value} :
      IsValue ctx names uses target → target.isPlace → IsValue ctx names uses' value →
      target.type.takes value.type →
      IsStatement ctx names (uses ++ uses') (.assign info .assign target value) names
  | update {ctx names uses uses' info op arith target value t} :
      op.underlying? = some arith → IsValue ctx names uses target → target.isPlace →
      IsValue ctx names uses' value →
      Typing.resultOf (.arith arith) target.type.unwrap value.type.unwrap = some t →
      target.type.takes t →
      IsStatement ctx names (uses ++ uses') (.assign info op target value) names
  | whileLoop {ctx names uses uses' info cond body} :
      IsValue ctx names uses cond → cond.type.isBuiltin .bool →
      IsStatement { ctx with inLoop := true, inBreakable := true } names uses' body names →
      IsStatement ctx names (uses ++ uses') (.whileLoop info cond body) names
  | loop {ctx names uses info body} :
      IsStatement { ctx with inLoop := true, inBreakable := true } names uses body names →
      IsStatement ctx names uses (.loop info body) names
  | switch {ctx names uses uses' uses'' info selector cases fallback} :
      IsValue ctx names uses selector → selector.type.isInteger →
      AreCases { ctx with inBreakable := true } names uses' cases →
      IsStatement { ctx with inBreakable := true } names uses'' fallback names →
      IsStatement ctx names (uses ++ uses' ++ uses'') (.switch info selector cases fallback) names
  | break {ctx names info} : ctx.inBreakable → IsStatement ctx names [] (.break info) names
  | continue {ctx names info} : ctx.inLoop → IsStatement ctx names [] (.continue info) names
  | leave {ctx names info name t} :
      ctx.function = some (name, t) → t.isVoid →
      IsStatement ctx names [] (.ret info .missing) names
  | ret {ctx names uses info value name t} :
      ctx.function = some (name, t) → IsValue ctx names uses value →
      t.takes value.type → IsStatement ctx names uses (.ret info value) names

/-- The trees are statements, one after the other. -/
inductive AreStatements :
    CheckContext → Chain TypedName → List Resolution → List Tree → Chain TypedName → Prop
  | nil {ctx names} : AreStatements ctx names [] [] names
  | cons {ctx names names' names'' uses uses' tree rest} :
      IsStatement ctx names uses tree names' →
      AreStatements ctx names' uses' rest names'' →
      AreStatements ctx names (uses ++ uses') (tree :: rest) names''

/-- The trees are cases of a switch. -/
inductive AreCases : CheckContext → Chain TypedName → List Resolution → List Tree → Prop
  | nil {ctx names} : AreCases ctx names [] []
  | cons {ctx names uses uses' info values body rest} :
      IsStatement ctx names uses body names → AreCases ctx names uses' rest →
      AreCases ctx names (uses ++ uses') (.case info values body :: rest)

end

/-! ## Modules -/

/-- The function that an import gives, by name. -/
def imported? : Tree → Option (String × TypedName)
  | .importDecl info _ _ name t => some (name, ⟨t, true, info.pos⟩)
  | _ => none

/-- The function that a declaration gives, by name. -/
def function? : Tree → Option (String × TypedName)
  | .funcDecl info name _ _ _ _ => some (name, ⟨info.type, true, info.pos⟩)
  | _ => none

/-- The variable that a declaration gives, by name. -/
def declared? : Tree → Option (String × TypedName)
  | .varDecl info name _ _ => some (name, ⟨info.type, false, info.pos⟩)
  | _ => none

/-- The names are defined one after the other in the innermost level, none of them twice. -/
inductive Defines : Chain TypedName → List (String × TypedName) → Chain TypedName → Prop
  | nil {names} : Defines names [] names
  | cons {names names' name value rest} :
      names.lookupLocal name = none → Defines (names.define name value) rest names' →
      Defines names ((name, value) :: rest) names'

/-- The declarations of variables among the trees have types that fit, with the names in sight before
and after them. -/
inductive AreGlobals : Chain TypedName → List Resolution → List Tree → Chain TypedName → Prop
  | nil {names} : AreGlobals names [] [] names
  | declare {names names' uses info name declared rest} :
      names.lookupLocal name = none →
      AreGlobals (names.define name ⟨info.type, false, info.pos⟩) uses rest names' →
      AreGlobals names uses (.varDecl info name declared .missing :: rest) names'
  | declareAs {names names' uses uses' info name declared init rest} :
      IsValue table {} names uses init → info.type.takes init.type →
      names.lookupLocal name = none →
      AreGlobals (names.define name ⟨info.type, false, info.pos⟩) uses' rest names' →
      AreGlobals names (uses ++ uses') (.varDecl info name declared init :: rest) names'
  | skip {names names' uses tree rest} :
      tree.declared? = none → AreGlobals names uses rest names' →
      AreGlobals names uses (tree :: rest) names'

/-- The tree is a function that returns what its type says. -/
inductive IsFunction (names : Chain TypedName) : List Resolution → Tree → Prop
  | value {inner uses info name params body result occurrence returned} :
      info.type = .function occurrence (params.map type) returned →
      names.lookup name = some ⟨info.type, true, info.pos⟩ →
      Defines (Level.empty :: names) (params.filterMap declared?) inner →
      IsValue table { function := some (name, returned) } inner uses body →
      returned.takes body.type →
      IsFunction names uses (.funcDecl info name params body result true)
  | statement {inner inner' uses info name params body result occurrence returned} :
      info.type = .function occurrence (params.map type) returned →
      names.lookup name = some ⟨info.type, true, info.pos⟩ →
      Defines (Level.empty :: names) (params.filterMap declared?) inner →
      IsStatement table { function := some (name, returned) } inner uses body inner' →
      IsFunction names uses (.funcDecl info name params body result false)

/-- The functions among the trees. -/
inductive AreFunctions (names : Chain TypedName) : List Resolution → List Tree → Prop
  | nil : AreFunctions names [] []
  | cons {uses uses' tree rest} :
      IsFunction table names uses tree → AreFunctions names uses' rest →
      AreFunctions names (uses ++ uses') (tree :: rest)
  | skip {uses tree rest} :
      tree.function? = none → AreFunctions names uses rest → AreFunctions names uses (tree :: rest)

/-- The tree is a module: all its functions are known before its variables, and these before the
bodies of functions. -/
inductive IsModule : List Resolution → Tree → Prop
  | module {info imports decls exports functions names uses uses'} :
      Defines [Level.empty] (imports.filterMap imported? ++ decls.filterMap function?) functions →
      AreGlobals table functions uses decls names → AreFunctions table names uses' decls →
      (∀ name ∈ exports, (names.lookup name).isSome) →
      IsModule (uses ++ uses') (.module info imports decls exports)

end Tree

end TreeWasm
