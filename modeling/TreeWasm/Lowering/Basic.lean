import TreeWasm.Code.Simplify
import TreeWasm.Layout.OfType
import TreeWasm.Report
import TreeWasm.Storage.Slots
import TreeWasm.Storage.Static

/-! # The effects of lowering

Lowering a tree takes local slots for variables and temporaries, numbers branch targets, reserves
static memory and gives warnings. What happened before a failure stays, so that the warnings given
until then can be shown.
-/

namespace TreeWasm

open Wasm

/-- A function of the module: its index and the layouts of its parameters and result. -/
structure LoweredFunction where
  declared : Position
  index : Nat
  params : List Layout
  result : Layout
  signature : FuncType
  deriving Repr

inductive Binding
  /-- A variable; its slots are given back at the end of its level. -/
  | variable (storage : Node)
  | parameter (storage : Node)
  | function (f : LoweredFunction)
  deriving Repr

def Binding.declared : Binding → Position
  | .variable storage | .parameter storage => storage.pos
  | .function f => f.declared

/-- What surrounds a node: the settings, whether there is a function, and where `break` and
`continue` lead. -/
structure LowerContext where
  settings : Settings
  address : Layout
  inFunction : Bool := false
  breakTo : Option Nat := none
  continueTo : Option Nat := none

/-- A value in slots with the place it was asked for. -/
structure Held where
  pos : Position
  slots : List Nat
  deriving DecidableEq, Repr

structure LowerState where
  table : TypeTable
  static : StaticMemory
  names : Chain Binding
  pool : SlotPool
  labels : Labels
  /-- Temporaries of the statements at hand, the latest first. -/
  temps : List Held
  needsMemory : Bool
  resolved : List Resolution
  warnings : List Diagnostic
  deriving Repr

abbrev Lower := ReaderT LowerContext (ExceptT Failure (StateM LowerState))

namespace Lower

def fail {α : Type} (pos : Position) (fault : LoweringFault) : Lower α :=
  throw (.lowering pos fault)

def defect {α : Type} (pos : Position) (defect : PipelineDefect) : Lower α :=
  throw (.pipeline pos defect)

def ofLayout {α : Type} (result : Except LayoutDefect α) : Lower α :=
  match result with
  | .ok value => pure value
  | .error defect => throw (.layout defect)

def ofResult {α : Type} (result : Except Failure α) : Lower α :=
  match result with
  | .ok value => pure value
  | .error failure => throw failure

def layoutOf (t : Ty) : Lower Layout := do
  if t.isAbsent then defect .unset .untyped
  else ofLayout ((← get).table.layout t.unwrap)

def warn (pos : Position) (notice : Notice) : Lower Unit := do
  let diagnostic : Diagnostic := ⟨pos, notice⟩
  if (← read).settings.wants diagnostic then
    modify (fun state => { state with warnings := diagnostic :: state.warnings })

def enabled (feature : Feature) : Lower Bool := do
  return (← read).settings.features feature

def useMemory : Lower Unit :=
  modify (fun state => { state with needsMemory := true })

/-! ## Labels -/

def freshLabel : Lower Nat := do
  let state ← get
  let (labels, label) := state.labels.fresh
  set { state with labels := labels }
  return label

/-- A branch, counted as a use of its label. -/
def branch (info : Info) (label : Nat) : Lower Node := do
  modify (fun state => { state with labels := state.labels.use label })
  return .branch info label

def branchIf (info : Info) (label : Nat) (cond : Node) : Lower Node := do
  modify (fun state => { state with labels := state.labels.use label })
  return .branchIf info label cond

def branchTable (info : Info) (index : Node) (targets : List Nat) (default : Nat) :
    Lower Node := do
  modify (fun state => { state with labels := state.labels.useAll (targets ++ [default]) })
  return .branchTable info index targets default

/-- Folds constants, whatever the settings say. -/
def fold (n : Node) : Lower Node := do
  let (folded, _) ← ofResult (n.simplify (← get).labels)
  return folded

/-- Folds constants if the settings ask for it. -/
def simplify (n : Node) : Lower Node := do
  if ← enabled .fold then fold n else return n

/-- Folds a whole body. Branches that were removed no longer count, so that blocks around them may
go in a second pass. -/
def simplifyBody (n : Node) : Lower Node := do
  if ← enabled .fold then
    let n ← fold n
    let state ← get
    let (labels, dropped) := state.labels.recount n
    set { state with labels := labels }
    if dropped then fold n else return n
  else return n

/-! ## Slots -/

def alloc (pos : Position) (l : Layout) : Lower Held := do
  let state ← get
  let (pool, slots) ← ofLayout (state.pool.alloc l)
  set { state with pool := pool }
  return ⟨pos, slots⟩

def release (held : Held) : Lower Unit := do
  let state ← get
  let (pool, stray) := state.pool.release held.slots
  set { state with pool := pool }
  match stray with
  | none => return
  | some slot => defect held.pos (.slotReleasedTwice slot)

/-- Slots that are kept until the statement at hand ends. -/
def temporary (pos : Position) (l : Layout) : Lower Node := do
  let held ← alloc pos l
  modify (fun state => { state with temps := held :: state.temps })
  return .locals ⟨pos, l⟩ held.slots

/-- Gives back the temporaries that the lowering of a statement took. -/
def withTemporaries {α : Type} (lower : Lower α) : Lower α := do
  let before := (← get).temps.length
  let result ← lower
  let temps := (← get).temps
  let taken := (temps.take (temps.length - before)).reverse
  taken.forM release
  modify (fun state => { state with temps := temps.drop (temps.length - before) })
  return result

/-! ## Names -/

/-- Binds a name in the innermost level, once. -/
def bind (pos : Position) (name : String) (binding : Binding) : Lower Unit := do
  let state ← get
  if (state.names.lookupLocal name).isSome then fail pos (.redefinition name)
  else set { state with names := state.names.define name binding }

def find (pos : Position) (name : String) : Lower Binding := do
  match (← get).names.lookup name with
  | some binding => return binding
  | none => defect pos (.noStorage name)

/-- What a name that is used is bound to. -/
def resolve (pos : Position) (name : String) : Lower Binding := do
  let binding ← find pos name
  modify (fun state =>
    { state with resolved := ⟨pos, name, binding.declared⟩ :: state.resolved })
  return binding

def openLevel : Lower Unit :=
  modify (fun state => { state with names := Level.empty :: state.names })

/-- Closes the innermost level: its variables give back their slots. -/
def closeLevel : Lower Unit := do
  let level := (← get).names.headD Level.empty
  level.bindings.forM (fun (_, binding) =>
    match binding with
    | .variable (.locals info slots) => release ⟨info.pos, slots⟩
    | _ => return)
  modify (fun state => { state with names := state.names.drop 1 })

def inLevel {α : Type} (lower : Lower α) : Lower α := do
  openLevel
  let result ← lower
  closeLevel
  return result

/-- Refuses a value of several slots unless the settings allow several results. -/
def requireMultiValue (pos : Position) (l : Layout) (what : String) : Lower Unit := do
  let kinds ← ofLayout l.flatten
  if kinds.length > 1 && !(← enabled .multiValue) then
    fail pos (.needsMultiValue what l.tag.text)

end Lower

end TreeWasm
