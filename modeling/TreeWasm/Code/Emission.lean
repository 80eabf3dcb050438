import TreeWasm.Code.Place

/-! # Emission

From code nodes to instructions. A node can play several roles: its value can be loaded, it can be
stored somewhere, it can be the place that is stored to, and it can be an address.
`Node.emission` gives all of them by recursion on the node.
-/

namespace TreeWasm

open Wasm

/-- The instructions that turn the scalar on the stack into a truth value. -/
def truth (kind : Scalar) : Code :=
  match kind.slot with
  | .i64 => [.numeric (.isZero .w64), .numeric (.isZero .w32)]
  | .f32 => [.constSingle ⟨0⟩, .numeric (.floatCompare .w32 .ne)]
  | .f64 => [.constDouble ⟨0⟩, .numeric (.floatCompare .w64 .ne)]
  | _ => if kind = .bool then [] else [.numeric (.isZero .w32), .numeric (.isZero .w32)]

/-- The instructions that convert the value on the stack between two layouts. -/
def conversion (pos : Position) (source target : Layout) : Emit Code := do
  let clamp := target.clamp (← read).signExt
  if target.isBool then
    return source.scalar?.elim [] truth
  let some kind := source.scalar? | Emit.fail pos (.conversion source.text target.text)
  let sign : Sign := if target.isSigned then .signed else .unsigned
  return match kind.slot, target.slot with
    | .i32, .i32 => clamp
    | .i32, .i64 => [.numeric (.extend kind.sign)]
    | .i32, .f32 => [.numeric (.convert .w32 .w32 kind.sign)]
    | .i32, .f64 => [.numeric (.convert .w64 .w32 kind.sign)]
    | .i64, .i32 => .numeric .wrap :: clamp
    | .i64, .f32 => [.numeric (.convert .w32 .w64 kind.sign)]
    | .i64, .f64 => [.numeric (.convert .w64 .w64 kind.sign)]
    | .f32, .i32 => .numeric (.truncate .w32 .w32 sign) :: clamp
    | .f32, .i64 => [.numeric (.truncate .w64 .w32 sign)]
    | .f32, .f64 => [.numeric .promote]
    | .f64, .i32 => .numeric (.truncate .w32 .w64 sign) :: clamp
    | .f64, .i64 => [.numeric (.truncate .w64 .w64 sign)]
    | .f64, .f32 => [.numeric .demote]
    | _, _ => []

/-- The roles of a node. -/
structure Emission where
  /-- Pushes the value; a statement is simply executed. -/
  load : Emit Code
  store : Place → Emit Code
  place : Place
  /-- The value used as an address. -/
  address : Address
  /-- Pushes the address of the value. -/
  reach : Emit Code

namespace Emission

/-- Stores a value by way of the stack. A scalar in memory has its address pushed first. -/
def storeLoaded (load : Emit Code) : Place → Emit Code
  | .slots _ held => return (← load) ++ held.reverse.map .localSet
  | .memory info address offset => do
    if info.layout.isScalar then
      let target ← address.code
      let value ← load
      let store ← Emit.ofLayout (info.layout.store offset)
      return target ++ value ++ [store]
    else
      let value ← load
      return value ++ (← (Place.memory info address offset).consume)
  | .none pos form => Emit.fail pos (.notAssignable form)

/-- The roles of a node that has only a value. -/
def ofValue (n : Node) (value : Emit Code) : Emission :=
  let load : Emit Code := return .mark n.pos :: (← value)
  { load := load
    store := storeLoaded load
    place := .none n.pos n.formName
    address := ⟨false, n.layout, load⟩
    reach := Emit.fail n.pos (.notAddressable n.formName) }

def loadAll (parts : List Emission) : Emit Code :=
  return (← parts.mapM Emission.load).flatten

/-- Stores values to the parts of a place, the first of them to the part at `index`. -/
def storeParts (place : Place) (index : Nat) : List Emission → Emit Code
  | [] => return []
  | part :: rest => do
    match place.part index with
    | .error failure => throw failure
    | .ok target =>
      let code ← part.store target
      return code ++ (← storeParts place (index + 1) rest)

/-- Stores a literal part by part, unless evaluating a part could see another being written. -/
def storeLiteral (n : Node) (load : Emit Code) (parts : List Emission) : Place → Emit Code
  | .slots info held =>
    if n.any (fun inner => inner.holdsSlot held) then storeLoaded load (.slots info held)
    else storeParts (.slots info held) 0 parts
  | .memory info address offset => do
    if info.layout.isScalar || n.any Node.touchesMemory then
      storeLoaded load (.memory info address offset)
    else
      let (setup, kept, spilled) ← address.hold parts.length
      let code ← storeParts (.memory info kept offset) 0 parts
      Emit.releaseScratch spilled
      return setup ++ code
  | .none pos form => storeLoaded load (.none pos form)

def ofLiteral (n : Node) (parts : List Emission) : Emission :=
  let plain := ofValue n (loadAll parts)
  { plain with store := storeLiteral n plain.load parts }

/-- The roles of a constant that can serve as an address again and again. -/
def ofConst32 (info : Info) (value : Int32) : Emission :=
  let plain := ofValue (.const32 info value) (return [.const32 value])
  { plain with address := { plain.address with stable := true } }

def ofLocals (info : Info) (held : List Nat) : Emission :=
  let plain := ofValue (.locals info held) (return held.map .localGet)
  { plain with
    store := fun target =>
      match target with
      | .memory targetInfo address offset =>
        if targetInfo.layout.isScalar then storeLoaded plain.load target
        else Place.storeSlots targetInfo address offset held
      | _ => storeLoaded plain.load target
    place := .slots info held
    address := { plain.address with stable := true } }

def loadLeaves (info : Info) (address : Address) (offset : Int64) : Emit Code := do
  if let .struct tag true _ _ := info.layout then
    Emit.fail info.pos (.unionLoad tag.text)
  let leaves ← Emit.ofLayout info.layout.leaves
  let (setup, kept, spilled) ← address.hold leaves.length
  let reads ← leaves.mapM (fun leaf => do
    let code ← kept.code
    let load ← Emit.ofLayout (leaf.layout.load (offset + leaf.offset))
    return code ++ [load])
  Emit.releaseScratch spilled
  return setup ++ reads.flatten

/-- The roles of a value in memory at an address plus an offset. -/
def ofData (info : Info) (addr : Node) (address : Address) (offset : Int64) : Emission :=
  let n := Node.data info addr offset
  let plain := ofValue n (loadLeaves info address offset)
  { plain with
    store := fun target =>
      match target with
      | .memory targetInfo targetAddress targetOffset =>
        if targetInfo.layout.isScalar then storeLoaded plain.load target
        else copyMemory targetInfo.layout.size targetAddress targetOffset address offset
      | _ => storeLoaded plain.load target
    place := .memory info address offset
    reach :=
      match addr with
      | .const32 _ base => return [.const32 (base + offset.toInt32)]
      | _ => do
        let code ← address.code
        if offset = 0 then return code
        return code ++ [.const32 offset.toInt32, .numeric (.int .w32 .add)] }

def unaryCode (info : Info) (op : Operator) (x : Node) (operand : Emit Code) : Emit Code := do
  let clamp := info.layout.clamp (← read).signExt
  match op with
  | .arith .sub =>
    let code ← operand
    return match info.layout.slot with
      | .f32 => code ++ [.numeric (.floatNegate .w32)]
      | .f64 => code ++ [.numeric (.floatNegate .w64)]
      | .i64 => .const64 0 :: code ++ [.numeric (.int .w64 .sub)]
      | _ => .const32 0 :: code ++ .numeric (.int .w32 .sub) :: clamp
  | .not =>
    let code ← operand
    let width : Width := if x.layout.slot = .i64 then .w64 else .w32
    return code ++ [.numeric (.isZero width)]
  | .complement =>
    let code ← operand
    if info.layout.slot = .i64 then
      return code ++ [.const64 (-1), .numeric (.int .w64 .xor)]
    return code ++ .const32 (-1) :: .numeric (.int .w32 .xor) :: clamp
  | _ => Emit.fail info.pos (.unary op.text)

end Emission

namespace Node

mutual

def emission : Node → Emission
  | absent =>
    { Emission.ofValue absent (Emit.fail .unset (.cannotLoad absent.formName)) with
      load := Emit.fail .unset (.cannotLoad absent.formName) }
  | const32 info v => Emission.ofConst32 info v
  | const64 info v => Emission.ofValue (const64 info v) (return [.const64 v])
  | constFloat info v =>
    let code : Code :=
      if info.layout.slot = .f32 then [.constSingle v.narrow] else [.constDouble v]
    Emission.ofValue (constFloat info v) (return code)
  | binary info op x y =>
    let ex := x.emission
    let ey := y.emission
    Emission.ofValue (binary info op x y) do
      let left ← ex.load
      let right ← ey.load
      let op ← Emit.ofLayout (info.layout.arith op)
      return left ++ right ++ .numeric op :: info.layout.clamp (← read).signExt
  | unary info op x =>
    let ex := x.emission
    Emission.ofValue (unary info op x) (Emission.unaryCode info op x ex.load)
  | convert info x =>
    let ex := x.emission
    Emission.ofValue (convert info x) do
      let code ← ex.load
      return code ++ (← conversion info.pos x.layout info.layout)
  | compare info op x y =>
    let ex := x.emission
    let ey := y.emission
    Emission.ofValue (compare info op x y) do
      let left ← ex.load
      let right ← ey.load
      let op ← Emit.ofLayout (x.layout.compare op)
      return left ++ right ++ [.numeric op]
  | data info addr offset => Emission.ofData info addr addr.emission.address offset
  | scaledOffset info ptr index size =>
    let base := ptr.emission
    let factor := index.emission
    Emission.ofValue (scaledOffset info ptr index size) do
      let ptrCode ← base.load
      let indexCode ← factor.load
      let scale := if size = 1 then [] else [.const32 size.toInt32, .numeric (.int .w32 .mul)]
      return ptrCode ++ indexCode ++ scale ++ [.numeric (.int .w32 .add)]
  | locals info slots => Emission.ofLocals info slots
  | ifElse info cond yes no =>
    let ec := cond.emission
    let ey := yes.emission
    let en := no.emission
    Emission.ofValue (ifElse info cond yes no) do
      let test ← ec.load
      let type ← Emit.blockType info.layout
      let yesCode ← Emit.inside none ey.load
      if no.isAbsent then return test ++ [.ifThen type yesCode]
      let noCode ← Emit.inside none en.load
      return test ++ [.ifElse type yesCode noCode]
  | loop info label body =>
    let eb := body.emission
    Emission.ofValue (loop info label body) do
      if (← read).labels.uses label = 0 then eb.load
      else
        let type ← Emit.blockType info.layout
        return [.loop type (← Emit.inside label eb.load)]
  | block info label children =>
    let parts := emissions children
    Emission.ofValue (block info label children) do
      if (← read).labels.uses label = 0 then Emission.loadAll parts
      else
        let type ← Emit.blockType info.layout
        return [.block type (← Emit.inside label (Emission.loadAll parts))]
  | seq info children =>
    let parts := emissions children
    Emission.ofValue (seq info children) (Emission.loadAll parts)
  | branch info label =>
    Emission.ofValue (branch info label) do
      return [.br (← Emit.depth info.pos label)]
  | branchIf info label cond =>
    let ec := cond.emission
    Emission.ofValue (branchIf info label cond) do
      let test ← ec.load
      return test ++ [.brIf (← Emit.depth info.pos label)]
  | branchTable info index targets default =>
    let ei := index.emission
    Emission.ofValue (branchTable info index targets default) do
      let code ← ei.load
      let depths ← targets.mapM (Emit.depth info.pos)
      return code ++ [.brTable depths (← Emit.depth info.pos default)]
  | ret info value =>
    let ev := value.emission
    Emission.ofValue (ret info value) do
      if value.isAbsent then return [.ret]
      return (← ev.load) ++ [.ret]
  | unreachable info => Emission.ofValue (unreachable info) (return [.unreachable])
  | nop info => Emission.ofValue (nop info) (return [])
  | drop info x =>
    let ex := x.emission
    Emission.ofValue (drop info x) do
      let code ← ex.load
      let slots ← Emit.ofLayout x.layout.flatten
      return code ++ slots.map (fun _ => .drop)
  | structLit info fields =>
    Emission.ofLiteral (structLit info fields) (emissions fields)
  | arrayLit info elems =>
    Emission.ofLiteral (arrayLit info elems) (emissions elems)
  | call info func name args =>
    let parts := emissions args
    Emission.ofValue (call info func name args) do
      return (← Emission.loadAll parts) ++ [.call func]
  | assign info target value =>
    let et := target.emission
    let ev := value.emission
    Emission.ofValue (assign info target value) (ev.store et.place)
  | addressOf info x =>
    let ex := x.emission
    Emission.ofValue (addressOf info x) ex.reach
  termination_by structural n => n

def emissions : List Node → List Emission
  | [] => []
  | n :: rest => n.emission :: emissions rest
  termination_by structural nodes => nodes

end

/-- Code that pushes the value of a node, or executes a statement. -/
def load (n : Node) : Emit Code := n.emission.load

def address (n : Node) : Emit Code := n.emission.reach

def storeTo (value target : Node) : Emit Code := value.emission.store target.emission.place

def consume (target : Node) : Emit Code := target.emission.place.consume

end Node

end TreeWasm
