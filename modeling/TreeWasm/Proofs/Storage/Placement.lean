import TreeWasm.Proofs.Lowering.Frame
import TreeWasm.Proofs.Storage.Sizes

/-! # Placing variables

The variables of a module are placed in static memory in the order of their declaration, each where
the one before it ends. `Stores` relates a state of lowering to the variables declared so far: where
the next one goes, what data there is, and which names stand for which cells.
-/

namespace TreeWasm

open Wasm

/-! ## Images keep their size -/

namespace Node

theorem size_write {image : Image} {bytes : List UInt8} :
    (image.write bytes).bytes.size = image.bytes.size := by
  have hfold (entries : List (UInt8 × Nat)) (buffer : Array UInt8) :
      (entries.foldl (fun buffer entry => buffer.setIfInBounds entry.2 entry.1) buffer).size = buffer.size := by
    induction entries generalizing buffer with
    | nil => rfl
    | cons entry rest ih =>
      rw [List.foldl_cons, ih]
      exact Array.size_setIfInBounds
  exact hfold _ _

theorem size_writeConstant {l : Layout} {c : Constant} {image : Image} :
    (writeConstant l c image).2.bytes.size = image.bytes.size := by
  unfold writeConstant
  split
  · rfl
  · split
    · rfl
    · exact size_write

mutual

theorem size_writeStatic (n : Node) (image : Image) :
    (n.writeStatic image).2.bytes.size = image.bytes.size := by
  cases n with
  | const32 | const64 | constFloat => exact size_writeConstant
  | structLit info fields =>
    rw [writeStatic]
    split
    · rfl
    · split
      · exact size_writeFields fields _ image
      · rfl
  | arrayLit info elems =>
    rw [writeStatic]
    split
    · exact size_writeElems elems _ _ image
    · rfl
  | _ => rfl

theorem size_writeFields (values : List Node) (fields : List (Field Layout)) (image : Image) :
    (writeFields values fields image).2.bytes.size = image.bytes.size := by
  match values, fields with
  | [], _ | _ :: _, [] => simp [writeFields]
  | value :: values, field :: fields =>
    have hvalue := size_writeStatic value
    have hrest := size_writeFields values fields
    rw [writeFields]
    split
    · dsimp only
      split
      · rw [hrest]
        exact hvalue _
      · exact hvalue _
    · rfl

theorem size_writeElems (values : List Node) (size offset : Nat) (image : Image) :
    (writeElems values size offset image).2.bytes.size = image.bytes.size := by
  match values with
  | [] => simp [writeElems]
  | value :: values =>
    have hvalue := size_writeStatic value
    have hrest := size_writeElems values size
    rw [writeElems]
    split
    · dsimp only
      split
      · rw [hrest]
        exact hvalue _
      · exact hvalue _
    · rfl

end

end Node

/-! ## Cells -/

/-- A variable of a module and how its value is represented. -/
structure Variable where
  name : String
  layout : Layout

/-- A variable with the address that it was given. -/
structure Cell extends Variable where
  start : Int64

namespace Cell

/-- The offset of the data of a cell. -/
def offset (c : Cell) : UInt32 := c.start.toUInt64.toUInt32

/-- The node that stands for a cell where it is named. -/
def storage (c : Cell) (address : Layout) (pos : Position) : Node :=
  .data ⟨pos, c.layout⟩ (.int32 ⟨pos, address⟩ c.start.toInt32) 0

theorem constant?_storage (c : Cell) {address : Layout} (haddress : address.scalar? = some .pointer)
    {pos : Position} : ∃ addr, c.storage address pos = .data ⟨pos, c.layout⟩ addr 0 ∧
      addr.constant? = some ⟨c.start.toInt32.toInt64, .zero⟩ := by
  refine ⟨_, rfl, ?_⟩
  rw [Node.int32, Node.constant?, Layout.wrap, haddress]
  simp [Scalar.wrap]

/-- Cells for variables that follow one another. -/
def place (start : Int64) : List Variable → List Cell
  | [] => []
  | v :: rest => ⟨v, start⟩ :: place (start + v.layout.size) rest

/-- Where variables that follow one another end. -/
def finish (start : Int64) : List Variable → Int64
  | [] => start
  | v :: rest => finish (start + v.layout.size) rest

theorem place_append (start : Int64) (vars : List Variable) (v : Variable) :
    place start (vars ++ [v]) = place start vars ++ [⟨v, finish start vars⟩] := by
  induction vars generalizing start with
  | nil => rfl
  | cons w rest ih => exact congrArg (⟨w, start⟩ :: ·) (ih _)

theorem finish_append (start : Int64) (vars : List Variable) (v : Variable) :
    finish start (vars ++ [v]) = finish start vars + v.layout.size := by
  induction vars generalizing start with
  | nil => rfl
  | cons w rest ih => exact ih _

end Cell

/-- A declaration reserves a cell and adds at most one segment, which fills the cell. Its initial value
may be put aside instead. -/
theorem StaticMemory.declare_spec (memory : StaticMemory) (pos : Position) (v : Variable)
    (init : Node) :
    ∃ segments inits, memory.declare pos v.layout init =
        (⟨memory.next + v.layout.size, segments, inits, memory.address⟩,
          Cell.storage ⟨v, memory.next⟩ memory.address pos) ∧
      (∀ seg ∈ segments, seg ∈ memory.segments ∨ seg.offset = memory.next.toUInt64.toUInt32 ∧
        seg.data ≠ [] ∧ seg.data.length = v.layout.size.toInt.toNat) ∧
      (inits = memory.inits ∨ init.isAbsent = false ∧ inits = memory.inits ++
        [.assign ⟨pos, .unit⟩ (Cell.storage ⟨v, memory.next⟩ memory.address pos) init]) := by
  unfold declare
  dsimp only
  split
  · exact ⟨_, _, rfl, fun seg hseg => .inl hseg, .inl rfl⟩
  next hinit =>
    split
    · exact ⟨_, _, rfl, fun seg hseg => .inl hseg, .inr ⟨by simpa using hinit, rfl⟩⟩
    · split
      · exact ⟨_, _, rfl, fun seg hseg => .inl hseg, .inl rfl⟩
      next hnonzero =>
        refine ⟨_, _, rfl, fun seg hseg => ?_, .inl rfl⟩
        obtain hold | hnew := List.mem_append.mp hseg
        · exact .inl hold
        · obtain rfl := List.mem_singleton.mp hnew
          have hsize := init.size_writeStatic (Image.zeros v.layout.size.toInt.toNat)
          refine .inr ⟨rfl, ?_, ?_⟩
          · -- a segment is only written when some byte is not zero
            intro hempty
            apply hnonzero
            dsimp only at hempty
            rw [← Array.all_toList, hempty]
            rfl
          · rw [Array.length_toList, hsize]
            exact Array.size_replicate

/-- The state of lowering after these variables were declared. -/
structure Stores (vars : List Variable) (s : LowerState) : Prop where
  pointer : s.static.address.scalar? = some .pointer
  outer : s.names.tail = []
  next : s.static.next = Cell.finish StaticMemory.base vars
  segments : ∀ seg ∈ s.static.segments, ∃ c ∈ Cell.place StaticMemory.base vars,
    seg.offset = c.offset ∧ seg.data ≠ [] ∧ seg.data.length = c.layout.size.toInt.toNat
  bound : ∀ c ∈ Cell.place StaticMemory.base vars, ∃ pos,
    s.names.lookupLocal c.name = some (.variable (c.storage s.static.address pos))
  stored : ∀ name info addr offset,
    s.names.lookupLocal name = some (.variable (.data info addr offset)) →
    ∃ c ∈ Cell.place StaticMemory.base vars, c.name = name ∧
      .data info addr offset = c.storage s.static.address info.pos

namespace Stores

variable {vars : List Variable} {s s' : LowerState}

theorem keeps (h : Stores vars s) (hkeeps : s.Keeps s') : Stores vars s' where
  pointer := by rw [hkeeps.static, h.pointer]
  outer := hkeeps.outer.trans h.outer
  next := by rw [hkeeps.static, h.next]
  segments := by rw [hkeeps.static]; exact h.segments
  bound := by
    intro c hc
    obtain ⟨pos, hpos⟩ := h.bound c hc
    rw [hkeeps.static]
    exact ⟨pos, hkeeps.found _ _ hpos⟩
  stored := by
    intro name info addr offset hfound
    rw [hkeeps.static]
    exact h.stored name info addr offset (hkeeps.stored name info addr offset hfound)

theorem start (table : TypeTable) {address : Layout} (hpointer : address.scalar? = some .pointer) :
    Stores [] ⟨table, .empty address, [Level.empty], .ofParams [], .empty, [], false, [], []⟩ where
  pointer := hpointer
  outer := rfl
  next := rfl
  segments := by simp [StaticMemory.empty]
  bound := by simp [Cell.place]
  stored := by simp [Chain.lookupLocal, Level.find?, Level.empty]

theorem declare (h : Stores vars s) (pos : Position) (v : Variable) (init : Node)
    (hfresh : s.names.lookupLocal v.name = none) :
    Stores (vars ++ [v])
      { s with
        static := (s.static.declare pos v.layout init).1
        names := s.names.define v.name (.variable (s.static.declare pos v.layout init).2) } := by
  obtain ⟨segments, inits, heq, hsegments, -⟩ := s.static.declare_spec pos v init
  rw [heq]
  have hplace := Cell.place_append StaticMemory.base vars v
  have hcell : (⟨v, s.static.next⟩ : Cell) = ⟨v, Cell.finish StaticMemory.base vars⟩ := by
    rw [h.next]
  constructor
  case pointer => exact h.pointer
  case outer => exact (Chain.tail_define _ _ _).trans h.outer
  case next => rw [Cell.finish_append, h.next]
  case segments =>
    intro seg hseg
    rw [hplace]
    obtain hold | ⟨hoffset, hdata, hlen⟩ := hsegments seg hseg
    · obtain ⟨c, hc, hsegment⟩ := h.segments seg hold
      exact ⟨c, List.mem_append_left _ hc, hsegment⟩
    · refine ⟨⟨v, s.static.next⟩, ?_, hoffset, hdata, hlen⟩
      rw [hcell]
      exact List.mem_append_right _ (List.mem_singleton.mpr rfl)
  case bound =>
    intro c hc
    rw [hplace, ← hcell] at hc
    obtain hold | hnew := List.mem_append.mp hc
    · obtain ⟨pos', hpos⟩ := h.bound c hold
      refine ⟨pos', ?_⟩
      rw [Chain.lookupLocal_define, if_neg, hpos]
      intro hname
      rw [hname, hfresh] at hpos
      cases hpos
    · obtain rfl := List.mem_singleton.mp hnew
      refine ⟨pos, ?_⟩
      rw [Chain.lookupLocal_define, if_pos rfl]
  case stored =>
    intro name info addr offset hfound
    rw [Chain.lookupLocal_define] at hfound
    rw [hplace, ← hcell]
    split at hfound
    next hname =>
      refine ⟨⟨v, s.static.next⟩, List.mem_append_right _ (List.mem_singleton.mpr rfl), hname.symm, ?_⟩
      cases hfound
      rfl
    · obtain ⟨c, hc, hcname, hstorage⟩ := h.stored name info addr offset hfound
      exact ⟨c, List.mem_append_left _ hc, hcname, hstorage⟩

end Stores

end TreeWasm
