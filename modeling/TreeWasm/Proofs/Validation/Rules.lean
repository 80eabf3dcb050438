import TreeWasm.Proofs.Machine.Run

/-! # Validation

The typing rules of WebAssembly: what an instruction takes off the stack and leaves on it, and when
instructions fit together. Stack types list the top last. Nothing comes after a branch, a return or
a trap, so these leave whatever the code behind them takes.

A module has one memory. Its accesses are naturally aligned, which leaves the range of the offset to
be checked.
-/

namespace TreeWasm

open Wasm

/-- The signatures of the finished module and the types of the slots of the finished function. -/
structure Tables where
  types : List FuncType
  slots : Nat → Option ValType

/-- Where code stands: the types that a branch to each construct around it carries, innermost first,
the results of the function, and the functions that can be called. -/
structure Site where
  labels : List (List ValType)
  results : List ValType
  functions : Nat → Option FuncType

/-- Inside a construct whose branches carry values of the given types. -/
def Site.enter (site : Site) (types : List ValType) : Site := { site with labels := types :: site.labels }

namespace Wasm.Instr

mutual

/-- An instruction is valid at a site, with the types it takes off the stack and leaves on it. -/
def Valid (tables : Tables) : Site → Instr → List ValType → List ValType → Prop
  | _, unreachable, _, _ => True
  | _, nop, taken, left => taken = [] ∧ left = []
  | _, mark _, taken, left => taken = [] ∧ left = []
  | _, drop, taken, left => (∃ type, taken = [type]) ∧ left = []
  | site, ret, taken, _ => site.results <:+ taken
  | site, br depth, taken, _ =>
    ∃ carried, site.labels[depth]? = some carried ∧ carried <:+ taken
  | site, brIf depth, taken, left =>
    site.labels[depth]? = some left ∧ taken = left ++ [.i32]
  | site, brTable targets default, taken, _ =>
    ∃ carried, (∀ depth ∈ default :: targets, site.labels[depth]? = some carried) ∧
      carried ++ [.i32] <:+ taken
  | site, call func, taken, left => site.functions func = some ⟨taken, left⟩
  | _, localGet slot, taken, left =>
    taken = [] ∧ ∃ type, tables.slots slot = some type ∧ left = [type]
  | _, localSet slot, taken, left =>
    (∃ type, tables.slots slot = some type ∧ taken = [type]) ∧ left = []
  | _, localTee slot, taken, left =>
    ∃ type, tables.slots slot = some type ∧ taken = [type] ∧ left = [type]
  | _, const32 _, taken, left => taken = [] ∧ left = [.i32]
  | _, const64 _, taken, left => taken = [] ∧ left = [.i64]
  | _, constSingle _, taken, left => taken = [] ∧ left = [.f32]
  | _, constDouble _, taken, left => taken = [] ∧ left = [.f64]
  | _, load op offset, taken, left => offset < 2 ^ 32 ∧ taken = [.i32] ∧ left = [op.result]
  | _, store op offset, taken, left => offset < 2 ^ 32 ∧ taken = [.i32, op.operand] ∧ left = []
  | _, numeric op, taken, left => taken = op.params ∧ left = [op.result]
  | site, block type body, taken, left =>
    Frame.signature? tables.types type = some ⟨taken, left⟩ ∧
      AllValid tables (site.enter left) body taken left
  | site, loop type body, taken, left =>
    Frame.signature? tables.types type = some ⟨taken, left⟩ ∧
      AllValid tables (site.enter taken) body taken left
  | site, ifThen type body, taken, left =>
    -- Without an alternative, what the condition stands on is left as it is.
    taken = left ++ [.i32] ∧ Frame.signature? tables.types type = some ⟨left, left⟩ ∧
      AllValid tables (site.enter left) body left left
  | site, ifElse type yes no, taken, left =>
    ∃ params, taken = params ++ [.i32] ∧
      Frame.signature? tables.types type = some ⟨params, left⟩ ∧
      AllValid tables (site.enter left) yes params left ∧
      AllValid tables (site.enter left) no params left

/-- Each instruction finds what it takes on top of what it does not touch. -/
def AllValid (tables : Tables) : Site → List Instr → List ValType → List ValType → Prop
  | _, [], taken, left => taken = left
  | site, instr :: rest, taken, left =>
    ∃ below given got, taken = below ++ given ∧ Valid tables site instr given got ∧
      AllValid tables site rest (below ++ got) left

end

namespace AllValid

variable {tables : Tables} {site : Site} {instr : Instr} {code more : List Instr}
  {below first second third : List ValType}

theorem nil (types : List ValType) : AllValid tables site [] types types := rfl

theorem cons (h : instr.Valid tables site first second)
    (hmore : AllValid tables site more second third) :
    AllValid tables site (instr :: more) first third :=
  ⟨[], first, second, rfl, h, hmore⟩

theorem single (h : instr.Valid tables site first second) : AllValid tables site [instr] first second :=
  cons h (nil second)

theorem append (h : AllValid tables site code first second)
    (hmore : AllValid tables site more second third) :
    AllValid tables site (code ++ more) first third := by
  induction code generalizing first with
  | nil =>
    cases h
    exact hmore
  | cons instr code ih =>
    obtain ⟨below, given, got, htaken, hinstr, hcode⟩ := h
    exact ⟨below, given, got, htaken, hinstr, ih hcode⟩

/-- Code does not see what lies below the values it takes. -/
theorem frame (h : AllValid tables site code first second) (below : List ValType) :
    AllValid tables site code (below ++ first) (below ++ second) := by
  induction code generalizing first with
  | nil => exact congrArg (below ++ ·) h
  | cons instr code ih =>
    obtain ⟨inner, given, got, rfl, hinstr, hcode⟩ := h
    refine ⟨below ++ inner, given, got, (List.append_assoc _ _ _).symm, hinstr, ?_⟩
    rw [List.append_assoc]
    exact ih hcode

theorem push (h : AllValid tables site code [] second) (below : List ValType) :
    AllValid tables site code below (below ++ second) := by
  have hframe := h.frame below
  rwa [List.append_nil] at hframe

theorem mark (h : AllValid tables site code first second) (pos : Position) :
    AllValid tables site (.mark pos :: code) first second :=
  ⟨first, [], [], (List.append_nil _).symm, ⟨rfl, rfl⟩, by rwa [List.append_nil]⟩

end AllValid

end Wasm.Instr

end TreeWasm
