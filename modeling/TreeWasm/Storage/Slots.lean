import TreeWasm.Layout.Basic

/-! # Local slots

The pool of local slots of a function. A slot keeps its type for good: a released slot is handed
out again only for a value of the same type, the most recently released one first. Parameters take
the first slots and are never handed out.
-/

namespace TreeWasm

open Wasm

structure SlotPool where
  /-- The number of the first slot. -/
  first : Nat
  /-- How many of the slots are parameters. -/
  params : Nat
  /-- The types of all slots, in order of their numbers. -/
  kinds : Array ValType
  /-- Slots that may be handed out again, most recently released first. -/
  free : List Nat
  live : List Nat
  deriving DecidableEq, Repr, Inhabited

namespace SlotPool

def ofParams (params : List ValType) : SlotPool :=
  ⟨0, params.length, params.toArray, [], []⟩

/-- An empty pool whose slots follow all slots of this one. -/
def scratch (pool : SlotPool) : SlotPool :=
  ⟨pool.first + pool.kinds.size, 0, #[], [], []⟩

def paramSlots (pool : SlotPool) : List Nat :=
  (List.range pool.params).map (pool.first + ·)

def kind? (pool : SlotPool) (slot : Nat) : Option ValType :=
  if slot < pool.first then none else pool.kinds[slot - pool.first]?

/-- Picks a slot of the given type: a free one, or else a new one. -/
def pick (pool : SlotPool) (kind : ValType) : SlotPool × Nat :=
  match pool.free.find? (fun slot => pool.kind? slot == some kind) with
  | some slot => ({ pool with free := pool.free.erase slot }, slot)
  | none =>
    let slot := pool.first + pool.kinds.size
    ({ pool with kinds := pool.kinds.push kind }, slot)

def pickAll (pool : SlotPool) : List ValType → SlotPool × List Nat
  | [] => (pool, [])
  | kind :: kinds =>
    let (pool, slot) := pool.pick kind
    let (pool, slots) := pool.pickAll kinds
    (pool, slot :: slots)

def alloc (pool : SlotPool) (l : Layout) : Except LayoutDefect (SlotPool × List Nat) :=
  l.flatten.map (fun kinds =>
    let (pool, slots) := pool.pickAll kinds
    ({ pool with live := slots ++ pool.live }, slots))

/-- Takes slots back, up to the first that is not in use: that one is returned. -/
def release (pool : SlotPool) : List Nat → SlotPool × Option Nat
  | [] => (pool, none)
  | slot :: slots =>
    if slot ∈ pool.live then
      release { pool with live := pool.live.erase slot, free := slot :: pool.free } slots
    else (pool, some slot)

/-- The types of the slots that are no parameters. -/
def declared (pool : SlotPool) : List ValType :=
  pool.kinds.toList.drop pool.params

def liveCount (pool : SlotPool) : Nat :=
  pool.live.length

end SlotPool

end TreeWasm
