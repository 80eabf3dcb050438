import TreeWasm.Code.Labels
import TreeWasm.Storage.Slots

/-! # The effects of emission

Emitting instructions interns signatures in the module and takes scratch slots for values that
must be kept. What was interned stays so when emission fails.
-/

namespace TreeWasm

open Wasm

/-- What emission depends on: the uses of labels, whether the target has sign-extension
instructions, and the labels of the constructs around, innermost first. -/
structure EmitContext where
  labels : Labels
  signExt : Bool
  enclosing : List (Option Nat)
  deriving Repr

/-- What emission changes. -/
structure EmitState where
  module : Module
  scratch : SlotPool
  deriving Repr, Inhabited

abbrev Emit := ReaderT EmitContext (ExceptT Failure (StateM EmitState))

abbrev Code := List Instr

namespace Emit

def ofLayout {α : Type} (result : Except LayoutDefect α) : Emit α :=
  match result with
  | .ok value => pure value
  | .error defect => throw (.layout defect)

def fail {α : Type} (pos : Position) (defect : CodeDefect) : Emit α :=
  throw (.code pos defect)

def blockType (l : Layout) : Emit BlockType := do
  let state ← get
  let (module, type) ← ofLayout (l.blockType state.module)
  set { state with module := module }
  return type

def allocScratch (l : Layout) : Emit (List Nat) := do
  let state ← get
  let (scratch, slots) ← ofLayout (state.scratch.alloc l)
  set { state with scratch := scratch }
  return slots

def releaseScratch (slots : List Nat) : Emit Unit := do
  let state ← get
  let (scratch, stray) := state.scratch.release slots
  set { state with scratch := scratch }
  match stray with
  | none => return
  | some slot => throw (.pipeline .unset (.slotReleasedTwice slot))

def inside {α : Type} (label : Option Nat) (emit : Emit α) : Emit α :=
  withReader (fun context => { context with enclosing := label :: context.enclosing }) emit

/-- How many constructs a branch leaves to reach the one with the given label. -/
def depth (pos : Position) (label : Nat) : Emit Nat := do
  match (← read).enclosing.findIdx? (· == some label) with
  | some depth => return depth
  | none => fail pos (.labelOutside label)

end Emit

end TreeWasm
