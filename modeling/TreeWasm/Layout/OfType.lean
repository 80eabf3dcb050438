import TreeWasm.Layout.Basic

/-! # The layout of a type

Struct fields follow one another without gaps, in order of declaration; union fields all start at
offset 0. A type that would contain itself has no layout.
-/

namespace TreeWasm

namespace Layout

/-- Places fields one after the other. -/
def placeStruct (build : Ty → Except LayoutDefect Layout) (offset : Int64) (slot : Nat) :
    List (String × Ty) → Except LayoutDefect (Int64 × List (Field Layout))
  | [] => .ok (offset, [])
  | (name, t) :: rest => do
    let layout ← build t
    let slots ← layout.leaves
    let (size, fields) ← placeStruct build (offset + layout.size) (slot + slots.length) rest
    return (size, ⟨name, layout, offset, slot⟩ :: fields)

/-- Places all fields at the start; the size is that of the largest. -/
def placeUnion (build : Ty → Except LayoutDefect Layout) (size : Int64) :
    List (String × Ty) → Except LayoutDefect (Int64 × List (Field Layout))
  | [] => .ok (size, [])
  | (name, t) :: rest => do
    let layout ← build t
    let (size, fields) ← placeUnion build (max size layout.size) rest
    return (size, ⟨name, layout, 0, 0⟩ :: fields)

/-- The layout of a type, when the layouts of aggregates are known. -/
def ofTypeWith (aggregate : Nat → Except LayoutDefect Layout) (text : Ty → String) :
    Ty → Except LayoutDefect Layout
  | .absent => .error .noType
  | .location elem => ofTypeWith aggregate text elem
  | .builtin b =>
    let tag : TypeTag := ⟨.builtin b, b.text⟩
    match b with
    | .void | .memory => .ok (.void tag)
    | .error | .unknown => .error (.noLayout b.text)
    | _ =>
      match Scalar.ofBuiltin? b with
      | some kind => .ok (.scalar tag kind)
      | none => .error (.noLayout b.text)
  | .pointer occurrence elem =>
    .ok (.scalar ⟨.occurrence occurrence, text (.pointer occurrence elem)⟩ .pointer)
  | .array occurrence length elem => do
    let layout ← ofTypeWith aggregate text elem
    let tag : TypeTag := ⟨.occurrence occurrence, text (.array occurrence length elem)⟩
    match length with
    | none => return .array tag layout none (Int64.ofNat openArraySize)
    | some count => return .array tag layout (some count) (layout.size * count)
  | .function occurrence params result =>
    .error (.functionType (text (.function occurrence params result)))
  | .aggregate id => aggregate id

/-- The layout of an aggregate whose parts nest at most to the given depth. -/
def ofAggregate (table : TypeTable) : (depth : Nat) → Nat → Except LayoutDefect Layout
  | 0, id => .error (.recursive (table.text (.aggregate id)))
  | depth + 1, id =>
    match table.get? id with
    | none => .error .noType
    | some a => do
      let tag : TypeTag := ⟨.aggregate id, table.text (.aggregate id)⟩
      let build := ofTypeWith (ofAggregate table depth) table.text
      let (size, fields) ←
        if a.union then placeUnion build 0 a.fields.bindings
        else placeStruct build 0 0 a.fields.bindings
      return .struct tag a.union size fields

end Layout

/-- The layout of a type. Aggregates nest no deeper than there are aggregates, unless one contains
itself. -/
def TypeTable.layout (table : TypeTable) (t : Ty) : Except LayoutDefect Layout :=
  Layout.ofTypeWith (Layout.ofAggregate table table.aggregates.size) table.text t

end TreeWasm
