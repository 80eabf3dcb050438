import TreeWasm.Code.Emission
import TreeWasm.Lowering.Statement
import TreeWasm.Wasm.Sections

/-! # Lowering of modules

From a checked program to a module. Functions are declared by their signatures before any variable
or body is lowered. Variables live in static memory; initial values that are no constants are
assigned by a routine of the module's own, which runs at the start or is exported.
-/

namespace TreeWasm

open Wasm

/-- The marks of a body: code offsets with their places in the source. -/
structure BodyMarks where
  index : Nat
  marks : List (Nat × Position)
  deriving Repr

/-- What lowering a module adds to that of its parts. -/
structure ModuleState where
  module : Module
  bodies : List BodyMarks
  /-- Outside of functions, with the slots and labels of the routine that assigns initial values. -/
  lower : LowerState

abbrev Build := ReaderT LowerContext (ExceptT Failure (StateM ModuleState))

def pageSize : Int64 := 65536

namespace Build

open Lower (layoutOf)

/-- Lowers with the slots and labels at hand. -/
def lift {α : Type} (lower : Lower α) : Build α := fun context => do
  let state ← get
  let (result, after) := (lower.run context).run.run state.lower
  set { state with lower := after }
  match result with
  | .ok value => return value
  | .error failure => throw failure

def fail {α : Type} (pos : Position) (fault : LoweringFault) : Build α :=
  throw (.lowering pos fault)

def ofModule {α : Type} (pos : Position) (result : Except ModuleFault α) : Build α :=
  match result with
  | .ok value => pure value
  | .error fault => throw (.pipeline pos (.module fault))

/-- Changes the module and answers something about it. -/
def change {α : Type} (step : Module → Module × α) : Build α := do
  let state ← get
  let (module, value) := step state.module
  set { state with module := module }
  return value

def paramLayouts : List Ty → Lower (List Layout × List ValType)
  | [] => return ([], [])
  | t :: rest => do
    let l ← layoutOf t
    let kinds ← Lower.ofLayout l.flatten
    let (layouts, more) ← paramLayouts rest
    return (l :: layouts, kinds ++ more)

def signature (pos : Position) (name : String) (t : Ty) : Lower LoweredFunction := do
  match t with
  | .function _ params result =>
    let resultLayout ← layoutOf result
    let (layouts, kinds) ← paramLayouts params
    let results ← Lower.ofLayout resultLayout.flatten
    Lower.requireMultiValue pos resultLayout s!"Result of '{name}'"
    return ⟨pos, 0, layouts, resultLayout, ⟨kinds, results⟩⟩
  | _ => Lower.defect .unset .untyped

def importFunction (tree : Tree) : Build Unit := do
  match tree with
  | .importDecl info source field name t =>
    let f ← lift (signature info.pos name t)
    let state ← get
    let (module, index) ← ofModule info.pos (state.module.addImport source field f.signature)
    set { state with module := module }
    lift (Lower.bind info.pos name (.function { f with index := index }))
  | _ => return

def declareFunction (tree : Tree) : Build Unit := do
  match tree with
  | .funcDecl info name _ _ _ _ =>
    let f ← lift (signature info.pos name info.type)
    let index ← change (fun m => m.declare f.signature)
    lift (Lower.bind info.pos name (.function { f with index := index }))
  | _ => return

def globalVariable (tree : Tree) : Lower Unit := do
  match tree with
  | .varDecl info name _ init =>
    let l ← layoutOf info.type
    let value ←
      if init.isMissing then pure .absent
      else Lower.withTemporaries do Lower.simplify (← init.lowering.value)
    let state ← get
    let (static, storage) := state.static.declare info.pos l value
    set { state with static := static }
    Lower.bind info.pos name (.variable storage)
  | _ => return

/-- Emits a body as the code of a function. Slots for spilled values come after those of the
body. -/
def emitFunction (pos : Position) (index : Nat) (body : Node) : Build Unit := do
  let state ← get
  let pool := state.lower.pool
  let settings := (← read).settings
  let context : EmitContext := ⟨state.lower.labels, settings.features .signExt, []⟩
  let (result, emitted) : Except Failure Code × EmitState :=
    (body.load.run context).run.run ⟨state.module, pool.scratch⟩
  match result with
  | .error failure => throw failure
  | .ok code =>
    let live := emitted.scratch.liveCount
    if live ≠ 0 then throw (.pipeline pos (.liveScratch live))
    else
      let kinds := pool.declared ++ emitted.scratch.declared
      let body : Body := ⟨kinds, Instr.encode code⟩
      let module ← ofModule pos (emitted.module.define index body)
      let marks := if settings.features .sourceMap then Instr.marks code else []
      let bodies := state.bodies ++ [(⟨index, marks⟩ : BodyMarks)]
      set ({ state with module := module, bodies := bodies } : ModuleState)

/-- Binds parameters to the first slots of a function. -/
def bindParams : List Tree → List Layout → (slot : Nat) → Lower Unit
  | p :: params, l :: layouts, slot => do
    let count := (← Lower.ofLayout l.flatten).length
    match p with
    | .varDecl info name _ _ =>
      let slots := (List.range count).map (slot + ·)
      Lower.bind info.pos name (.parameter (.locals ⟨info.pos, l⟩ slots))
    | _ => pure ()
    bindParams params layouts (slot + count)
  | _, _, _ => return

/-- Lowers a function body in a level of its own. A body that has to return a value and falls off
its end has no way to go on. -/
def functionBody (params : List Tree) (body : Tree) (exprBody : Bool) (f : LoweredFunction) :
    Lower Node :=
  Lower.inLevel do
    bindParams params f.params 0
    if exprBody then Lower.withTemporaries body.lowering.value
    else
      let n ← body.lowering.statement
      if f.result.isVoid then return n
      else
        let info : Info := ⟨body.pos, .unit⟩
        return .seq info [n, .unreachable info]

def inFunction {α : Type} (pool : SlotPool) (build : Build α) : Build α := do
  let outer := (← get).lower
  modify (fun state => { state with lower := { state.lower with pool := pool, labels := .empty } })
  let result ← withReader (fun context => { context with inFunction := true }) build
  modify (fun state =>
    { state with lower := { state.lower with pool := outer.pool, labels := outer.labels } })
  return result

def defineFunction (tree : Tree) : Build Unit := do
  match tree with
  | .funcDecl info name params body _ exprBody =>
    match ← lift (Lower.find info.pos name) with
    | .function f =>
      inFunction (.ofParams f.signature.params) do
        let n ← lift (functionBody params body exprBody f)
        let live := (← get).lower.pool.liveCount
        if live ≠ 0 then throw (.pipeline info.pos (.liveSlots live name))
        else emitFunction info.pos f.index (← lift (Lower.simplifyBody n))
    | _ => return
  | _ => return

def isExported (m : Module) (name : String) : Bool :=
  m.exports.any (fun e => e.name == name)

def exportAs (pos : Position) (name : String) (kind : ExternKind) (index : Nat) : Build Unit := do
  let state ← get
  if isExported state.module name then fail pos (.exportUsedTwice name)
  else set { state with module := state.module.addExport name kind index }

/-- Builds the routine that assigns initial values, if there are any to assign. -/
def initRoutine (pos : Position) : Build Unit := do
  let inits := (← get).lower.static.inits
  if inits.isEmpty then return
  else
    let index ← change (fun m => m.declare ⟨[], []⟩)
    let body ← lift (Lower.simplifyBody (.seq ⟨pos, .unit⟩ inits))
    emitFunction pos index body
    if (← read).settings.features .startSection then
      change (fun m => (m.setStart index, ()))
    else exportAs pos "_initialize" .function index

/-- The number of pages that hold some bytes, at least one. -/
def pagesFor (size : Int64) : UInt32 :=
  let pages := (alignUp size pageSize / pageSize).toUInt64.toUInt32
  if pages = 0 then 1 else pages

/-- Declares memory, if any is used, with the data of the variables. -/
def memory (pos : Position) : Build Unit := do
  let lower := (← get).lower
  if !lower.static.isUsed && !lower.needsMemory then return
  else
    let pages := pagesFor lower.static.next
    let settings := (← read).settings
    let limit := settings.maxPages.toUInt64.toUInt32
    if limit ≠ 0 && limit < pages then fail pos (.tooManyPages pages limit)
    else
      change (fun m =>
        (lower.static.segments.foldl (fun m s => m.addData s.offset s.data)
          (m.setMemory ⟨pages, limit⟩), ()))
      if settings.features .exportMemory then exportAs pos "memory" .memory 0

/-- Exports a declared name: a function, or the address of a variable. -/
def exportName (pos : Position) (name : String) : Build Unit := do
  match (← get).lower.names.lookup name with
  | none => fail pos (.exportUndeclared name)
  | some (.function f) => exportAs pos name .function f.index
  | some (.variable (.data _ addr offset)) =>
    let start := addr.constant?.elim 0 Constant.int
    let index ← change (fun m => m.addGlobal ⟨.i32, false, start + offset⟩)
    exportAs pos name .global index
  | some _ => return

def moduleOf (root : Tree) : Build Unit := do
  match root with
  | .module info imports decls exports =>
    imports.forM importFunction
    decls.forM declareFunction
    decls.forM (fun decl => lift (globalVariable decl))
    decls.forM defineFunction
    initRoutine info.pos
    memory info.pos
    exports.forM (exportName info.pos)
  | other => throw (.pipeline other.pos (.lowererExpectsModule other.kindName))

end Build

structure Compiled where
  module : Module
  encoded : Encoded
  /-- Byte offsets in the encoded module with their places in the source, if asked for. -/
  marks : List (Nat × Position)

/-- Marks of bodies as offsets in the module; bodies come in the order of their functions. -/
def absoluteMarks (m : Module) (encoded : Encoded) (bodies : List BodyMarks) :
    List (Nat × Position) :=
  let sorted := bodies.mergeSort (fun a b => a.index ≤ b.index)
  sorted.flatMap (fun body =>
    let start := (encoded.bodyOffsets[body.index - m.imports.length]?).getD 0
    body.marks.map (fun (offset, pos) => (start + offset, pos)))

/-- Compiles a checked program: the outcome, and the warnings given until then. -/
def Program.compile (settings : Settings) (program : Program) :
    Except Failure Compiled × List Diagnostic :=
  let (table, pointer) := program.table.pointerTo (.builtin .u8)
  match table.layout pointer with
  | .error defect => (.error (.layout defect), [])
  | .ok address =>
    let lower : LowerState :=
      ⟨table, .empty address, [Level.empty], .ofParams [], .empty, [], false, [], []⟩
    let start : ModuleState := ⟨.empty, [], lower⟩
    let (result, state) :=
      ((Build.moduleOf program.root).run { settings := settings, address := address }).run.run
        start
    let outcome := do
      let _ ← result
      let encoded ← state.module.encode.mapError (fun fault =>
        Failure.pipeline program.root.pos (.module fault))
      return ⟨state.module, encoded, absoluteMarks state.module encoded state.bodies⟩
    (outcome, state.lower.warnings.reverse)

end TreeWasm
