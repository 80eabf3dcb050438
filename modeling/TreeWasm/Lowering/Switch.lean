import TreeWasm.Lowering.Expression

/-! # Lowering of switches

A switch jumps by a table when its case values lie close together, and otherwise compares the
selector with one value after the other. Every case ends by leaving the switch, so that none runs
into the next.
-/

namespace TreeWasm

structure SwitchCase where
  pos : Position
  values : List Int64
  body : Node
  deriving Repr

namespace Switch

/-- The widest range of values that a table may cover. -/
def maxSpan : Int64 := 256

/-- A table may be at most this many times as long as there are values. -/
def sparseness : Int64 := 3

def range? : List Int64 → Option (Int64 × Int64)
  | [] => none
  | value :: rest =>
    some (rest.foldl (fun (lo, hi) v => (if v < lo then v else lo, if hi < v then v else hi))
      (value, value))

/-- The range of the values, if a table over it is small and well filled. A range too wide for 64
bits shows as a span that is not positive. -/
def dense? (values : List Int64) : Option (Int64 × Int64) :=
  match range? values with
  | none => none
  | some (lo, hi) =>
    let span := hi - lo + 1
    if 0 < span && span ≤ maxSpan && span ≤ sparseness * Int64.ofNat values.length then
      some (lo, hi)
    else none

/-- The target of each index of a table: the label of the last case with that value. -/
def tableTargets (lo hi : Int64) (fallback : Nat) (cases : List (List Int64 × Nat)) : List Nat :=
  let empty := List.replicate (hi - lo + 1).toInt.toNat fallback
  cases.foldl (fun targets (values, label) =>
    values.foldl (fun targets v => targets.set (v - lo).toInt.toNat label) targets) empty

/-- Wraps each case around what was built before: the block that jumps to the case, its body, and
the branch to the end. -/
def nestCases (info : Info) (exit : Nat) : List (SwitchCase × Nat) → Node → Lower Node
  | [], inner => return inner
  | (c, label) :: rest, inner => do
    let leave ← Lower.branch info exit
    nestCases info exit rest (.seq info [.block info (some label) [inner], c.body, leave])

/-- A switch as a jump by a table, around which the bodies are nested. -/
def table (pos : Position) (selector : Node) (lo hi : Int64) (cases : List SwitchCase)
    (fallback : Node) (exit : Nat) : Lower Node := do
  let info : Info := ⟨pos, .unit⟩
  let labels ← cases.mapM (fun _ => Lower.freshLabel)
  let fallbackLabel ← Lower.freshLabel
  let targets := tableTargets lo hi fallbackLabel
    ((cases.map SwitchCase.values).zip labels)
  let position : Info := ⟨pos, .index⟩
  let index := Node.convert position selector
  let index :=
    if lo = 0 then index
    else .binary position (.arith .sub) index (.int32 position lo.toInt32)
  let jump ← Lower.branchTable info index targets fallbackLabel
  let nested ← nestCases info exit (cases.zip labels) jump
  return .seq info [.block info (some fallbackLabel) [nested], fallback]

/-- The condition that the selector is one of some values; without values it is missing. -/
def isOneOf (pos : Position) (selector : Node) (values : List Int64) : Node :=
  let info : Info := ⟨pos, .truth⟩
  values.foldl (fun cond v =>
    let equal := Node.compare info (.relation .eq) selector
      (.constant ⟨pos, selector.layout⟩ ⟨v, .zero⟩)
    if cond.isAbsent then equal else .ifElse info cond (.int32 info 1) equal) .absent

/-- A switch as a chain of comparisons. The selector is read more than once. -/
def chain (pos : Position) (selector : Node) (cases : List SwitchCase) (fallback : Node)
    (exit : Nat) : Lower Node := do
  let tests ← cases.mapM (fun c => do
    let info : Info := ⟨c.pos, .unit⟩
    let leave ← Lower.branch info exit
    return .ifElse info (isOneOf c.pos selector c.values) (.seq info [c.body, leave]) .absent)
  return .seq ⟨pos, .unit⟩ (tests ++ [fallback])

/-- Whether a node can be read again without computing anything. -/
def isStable : Node → Bool
  | .const32 .. | .locals .. => true
  | _ => false

def caseValues : Tree → List Int64
  | .case _ values _ => values
  | _ => []

def lower (tree : TreeInfo) (selector : Lowering) (cases : List Lowering) (fallback : Lowering) :
    Lower Node := do
  let info : Info := ⟨tree.pos, .unit⟩
  let sel ← selector.value
  let values := cases.flatMap (fun c => caseValues c.node)
  let dense := if sel.layout.slot = .i32 then dense? values else none
  let (sel, prelude) ←
    if dense.isNone && !isStable sel then do
      let temporary ← Lower.temporary selector.node.pos sel.layout
      pure (temporary, [Node.assign info temporary sel])
    else pure (sel, [])
  let exit ← Lower.freshLabel
  let (bodies, otherwise) ←
    withReader (fun context => { context with breakTo := some exit }) (Lower.inLevel do
      let bodies ← cases.mapM (fun c => do
        return (⟨c.node.pos, caseValues c.node, ← c.body⟩ : SwitchCase))
      let otherwise ← if fallback.node.isMissing then pure (.nop info) else fallback.statement
      return (bodies, otherwise))
  let inner ← match dense with
    | some (lo, hi) => table tree.pos sel lo hi bodies otherwise exit
    | none => chain tree.pos sel bodies otherwise exit
  return .seq info (prelude ++ [.block info (some exit) [inner]])

end Switch

end TreeWasm
