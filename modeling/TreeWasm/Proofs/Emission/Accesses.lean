import TreeWasm.Code.Emission
import TreeWasm.Proofs.Steps

/-! # Scratch slots and accesses to memory

What the steps do that change the state of emission. The leaves of a value in memory are read and written
one after the other, at one address that is held for all of them.
-/

namespace TreeWasm

open Wasm

variable {leaves : List Leaf}

namespace Emit

variable (ctx : EmitContext) (st : EmitState) {slots : List Nat}

/-- A step that computes a new part of the state, or fails with a defect of a layout. -/
theorem update_eq {α σ : Type} (result : Except LayoutDefect (σ × α)) (update : σ → EmitState) :
    (do
      let (new, a) ← ofLayout result
      set (update new)
      return a : Emit α) ctx st = match result with
        | .ok (new, a) => (.ok a, update new)
        | .error defect => (.error (.layout defect), st) := by
  rcases result with defect | ⟨new, a⟩ <;> rfl

theorem blockType_eq (l : Layout) : blockType l ctx st = match l.blockType st.module with
    | .ok (module, type) => (.ok type, { st with module := module })
    | .error defect => (.error (.layout defect), st) := by
  refine (update_eq ctx st (l.blockType st.module) (fun module => { st with module := module })).trans ?_
  cases l.blockType st.module <;> rfl

theorem allocScratch_eq (l : Layout) : allocScratch l ctx st = match st.scratch.alloc l with
    | .ok (scratch, slots) => (.ok slots, { st with scratch := scratch })
    | .error defect => (.error (.layout defect), st) := by
  refine (update_eq ctx st (st.scratch.alloc l) (fun scratch => { st with scratch := scratch })).trans ?_
  cases st.scratch.alloc l <;> rfl

theorem releaseScratch_eq : releaseScratch slots ctx st =
    (match (st.scratch.release slots).2 with
      | none => .ok ()
      | some slot => .error (.pipeline .unset (.slotReleasedTwice slot)),
      { st with scratch := (st.scratch.release slots).1 }) := by
  have hstep (result : SlotPool × Option Nat) : (do
      set { st with scratch := result.1 }
      match result.2 with
      | none => return
      | some slot => throw (Failure.pipeline .unset (.slotReleasedTwice slot)) : Emit Unit) ctx st =
        (match result.2 with
          | none => .ok ()
          | some slot => .error (.pipeline .unset (.slotReleasedTwice slot)),
          { st with scratch := result.1 }) := by
    rcases result with ⟨scratch, _ | slot⟩ <;> rfl
  exact hstep (st.scratch.release slots)

end Emit

/-- Accesses to memory at one address, from its code. -/
def Address.accesses {α : Type} (address : Address) (uses : Int) (items : List α)
    (access : Code → α → Emit Code) : Emit Code := do
  let (setup, kept, spilled) ← address.hold uses
  let codes ← items.mapM (fun item => do access (← kept.code) item)
  Emit.releaseScratch spilled
  return setup ++ codes.flatten

/-- Writes a leaf from a slot. -/
def Leaf.write (offset : Int64) (code : Code) (item : Leaf × Nat) : Emit Code := do
  let store ← Emit.ofLayout (item.1.layout.store (offset + item.1.offset))
  return code ++ [.localGet item.2, store]

def Leaf.read (offset : Int64) (code : Code) (leaf : Leaf) : Emit Code := do
  let load ← Emit.ofLayout (leaf.layout.load (offset + leaf.offset))
  return code ++ [load]

variable (info : Info) (address : Address) (offset : Int64)

theorem Place.storeSlots_eq (held : List Nat) :
    storeSlots info address offset held = (do
      let leaves ← Emit.ofLayout info.layout.leaves
      if leaves.length ≠ held.length then
        Emit.fail info.pos (.slotCount held.length info.layout.text)
      address.accesses leaves.length (leaves.zip held) (Leaf.write offset)) :=
  rfl

theorem Emission.loadLeaves_eq :
    loadLeaves info address offset = (do
      if let .struct tag true _ _ := info.layout then
        Emit.fail info.pos (.unionLoad tag.text)
      let leaves ← Emit.ofLayout info.layout.leaves
      address.accesses leaves.length leaves (Leaf.read offset)) :=
  rfl

end TreeWasm
