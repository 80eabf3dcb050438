import TreeWasm.Proofs.Lowering.Signatures
import TreeWasm.Proofs.Typing.Layouts
import TreeWasm.Proofs.Typing.Rules

/-! # What lowering relies on

Lowering finds what names are bound to, and takes slots and labels as it goes. A slot keeps its type
and a label stays known, so that code for a state is code for any later one.
-/

namespace TreeWasm

open Wasm

namespace LowerState

/-- The second state has the types, slots and labels of the first. -/
structure Grows (s s' : LowerState) : Prop where
  table : s'.table = s.table
  pool : s.pool.Extends s'.pool
  labels : s.labels.counts.length ≤ s'.labels.counts.length

/-- The second state has in addition the names of the first, and no others. -/
structure Extends (s s' : LowerState) : Prop extends Grows s s' where
  names : s'.names = s.names

instance : Std.Refl Grows := ⟨fun _ => ⟨rfl, .refl _, Nat.le_refl _⟩⟩

instance : Trans Grows Grows Grows :=
  ⟨fun h h' =>
    { table := h'.table.trans h.table
      pool := h.pool.trans h'.pool
      labels := Nat.le_trans h.labels h'.labels }⟩

instance : Std.Refl Extends := ⟨fun s => ⟨Std.Refl.refl s, rfl⟩⟩

instance : Trans Extends Extends Extends :=
  ⟨fun h h' => ⟨Trans.trans h.toGrows h'.toGrows, h'.names.trans h.names⟩⟩

variable {s s' s'' : LowerState}

theorem Grows.refl (s : LowerState) : s.Grows s := Std.Refl.refl s

theorem Grows.trans (h : s.Grows s') (h' : s'.Grows s'') : s.Grows s'' := Trans.trans h h'

end LowerState

/-- What the code of a body refers to: the types of the program, and the functions of the module. -/
structure Scene where
  types : TypeTable
  functions : Nat → Option FuncType
  /-- Whether there are variables in static memory. -/
  statics : Prop

namespace Scene

variable (scene : Scene)

/-- A function whose type is the given one. -/
structure Calls (t : Ty) (f : LoweredFunction) : Prop where
  type : ∃ occurrence params result, t = .function occurrence params result ∧
    List.Forall₂ (fun t l => scene.types.layout t = .ok l) params f.params ∧
    scene.types.layout result = .ok f.result
  params : ∀ l ∈ f.params, l.leaves.isOk
  result : f.result.leaves.isOk
  signature : f.signature = ⟨f.params.flatMap Layout.slots, f.result.slots⟩
  index : scene.functions f.index = some f.signature

end Scene

/-- The labels that jumps lead to are known, and addresses are pointers. -/
structure LowerContext.Admits (ctx : LowerContext) (s : LowerState) : Prop where
  address : ctx.address.scalar? = some .pointer
  faithful : ctx.address.isFaithful
  breakTo : ∀ l, ctx.breakTo = some l → l < s.labels.counts.length
  continueTo : ∀ l, ctx.continueTo = some l → l < s.labels.counts.length

theorem LowerContext.Admits.of_grows {ctx : LowerContext} {s s' : LowerState}
    (h : ctx.Admits s) (hgrows : s.Grows s') : ctx.Admits s' where
  address := h.address
  faithful := h.faithful
  breakTo := fun l hl => Nat.lt_of_lt_of_le (h.breakTo l hl) hgrows.labels
  continueTo := fun l hl => Nat.lt_of_lt_of_le (h.continueTo l hl) hgrows.labels

/-! ## The steps of lowering -/

theorem Labels.length_use (labels : Labels) (l : Nat) :
    (labels.use l).counts.length = labels.counts.length := by
  simp [Labels.use]

theorem Labels.length_useAll {labels : Labels} {targets : List Nat} :
    (labels.useAll targets).counts.length = labels.counts.length := by
  unfold Labels.useAll
  induction targets generalizing labels with
  | nil => rfl
  | cons l rest ih => rw [List.foldl_cons, ih, labels.length_use]

namespace Lower

open LowerState (Grows Extends)

variable {ctx : LowerContext} {s s' : LowerState}

theorem steps_extends_release (held : Held) : Steps Extends (release held) := by
  intro ctx s a s' hrun
  obtain ⟨before, s₁, hget, hrun⟩ := Steps.bind_eq_ok hrun
  cases hget
  obtain ⟨_, s₂, hset, hrun⟩ := Steps.bind_eq_ok hrun
  cases hset
  cases hstray : (s.pool.release held.slots).2 with
  | none =>
    rw [hstray] at hrun
    cases hrun
    exact ⟨⟨rfl, s.pool.extends_release held.slots, Nat.le_refl _⟩, rfl⟩
  | some slot =>
    rw [hstray] at hrun
    cases hrun

/-- Giving back temporaries takes no slot and no name away. -/
theorem withTemporaries_eq_ok {α : Type} {x : Lower α} {a : α}
    (h : withTemporaries x ctx s = (.ok a, s')) :
    ∃ s₁, x ctx s = (.ok a, s₁) ∧ s₁.Extends s' := by
  obtain ⟨before, s₁, hget, h⟩ := Steps.bind_eq_ok h
  cases hget
  obtain ⟨b, s₂, hx, h⟩ := Steps.bind_eq_ok h
  obtain ⟨after, s₃, hget, h⟩ := Steps.bind_eq_ok h
  cases hget
  obtain ⟨_, s₄, hrelease, h⟩ := Steps.bind_eq_ok h
  cases h
  have hreleased := Steps.forM _ (fun held _ => steps_extends_release held) _ _ _ _ hrelease
  exact ⟨s₂, hx, ⟨hreleased.table, hreleased.pool, hreleased.labels⟩, hreleased.names⟩

end Lower

/-! ## Parts of places

The slots of a field or of an element are some of the slots of the whole.
-/

theorem Layout.isOk_leaves_element {tag : TypeTag} {elem : Layout} {count size : Int64}
    (h : (Layout.array tag elem (some count) size).leaves.isOk) (hcount : 0 < count.toInt) :
    elem.leaves.isOk := by
  have hpositive : ¬ count ≤ 0 := by
    rw [Int64.le_iff_toInt_le]
    exact Int.not_le.mpr hcount
  rw [isOk_leaves_iff, spots_array_some, if_neg hpositive, Option.isSome_map] at h
  rw [isOk_leaves_iff]
  exact h

namespace Node

variable {size : Int64} {elem : Layout} {fields : List (Field Layout)} {slots : List Nat} {i : Nat}
  {f : Nat → Option ValType} {tag : TypeTag}

/-- Whether a node is a literal with parts. -/
def isLiteral : Node → Bool
  | structLit .. | arrayLit .. => true
  | _ => false

variable {n m : Node}

theorem isLiteral_eq_of_isPlace (h : n.isPlace) : n.isLiteral = false := by
  cases n with
  | data | locals => rfl
  | _ => cases h

theorem reference_eq_ok {pos : Position} (h : n.reference pos = .ok m) :
    m.layout = n.layout ∧ m.isPlace = n.isPlace := by
  cases n with
  | absent => cases h
  | _ =>
    cases h
    exact ⟨rfl, rfl⟩

/-! ## Fields -/

theorem map_slots_field {field : Field Layout}
    (hslots : slots.map f = (Layout.struct tag false size fields).slots.map some)
    (hplaced : Layout.FieldsPlaced 0 fields) (hok : ∀ field ∈ fields, field.layout.leaves.isOk)
    (hfield : fields[i]? = some field) :
    (slotRange slots field.slot field.layout.slots.length).map f = field.layout.slots.map some := by
  have hparts : (Layout.struct tag false size fields).TakesParts (fields.map Field.layout) :=
    ⟨rfl, hplaced, List.forall₂_same.mpr (fun l _ => .refl l)⟩
  have hall : ∀ part ∈ fields.map Field.layout, part.leaves.isOk := by simpa using hok
  have hpart : (fields.map Field.layout)[i]? = some field.layout := by simp [hfield]
  obtain ⟨found, hfound, -, hfirst⟩ := Layout.exists_field_of_takesParts hparts hpart
  obtain rfl : found = field := Option.some.inj (hfound.symm.trans hfield)
  rw [hparts.slots_eq hall] at hslots
  exact Place.map_slotRange hslots (by simp [hfield]) hfirst

theorem find?_eq_of_findIdx? {name : String}
    (h : fields.findIdx? (fun field => field.name == name) = some i) :
    ∃ field, fields[i]? = some field ∧ fields.find? (fun field => field.name == name) = some field := by
  obtain ⟨hi, hname, hbefore⟩ := List.findIdx?_eq_some_iff_getElem.mp h
  refine ⟨fields[i], List.getElem?_eq_getElem hi, ?_⟩
  rw [List.find?_eq_some_iff_getElem]
  refine ⟨hname, i, hi, rfl, fun j hj => ?_⟩
  simpa using hbefore j hj

/-! ## Elements -/

theorem map_slots_element {count : Int64}
    (hok : (Layout.array tag elem (some count) size).leaves.isOk)
    (hslots : slots.map f = (Layout.array tag elem (some count) size).slots.map some)
    (hi : i < count.toInt.toNat) :
    elem.leaves.isOk ∧ (slotRange slots (i * elem.slots.length) elem.slots.length).map f =
      elem.slots.map some := by
  have hcount : 0 < count.toInt := by omega
  have helem := Layout.isOk_leaves_element hok hcount
  have hparts : (Layout.array tag elem (some count) size).TakesParts
      (List.replicate count.toInt.toNat elem) := by
    refine ⟨?_, fun part hpart => List.eq_of_mem_replicate hpart ▸ .refl elem⟩
    rw [List.length_replicate]
    omega
  have hall : ∀ part ∈ List.replicate count.toInt.toNat elem, part.leaves.isOk :=
    fun part hpart => List.eq_of_mem_replicate hpart ▸ helem
  rw [hparts.slots_eq hall] at hslots
  refine ⟨helem, Place.map_slotRange (i := i) hslots ?_ ?_⟩
  · rw [List.map_replicate, List.getElem?_replicate, if_pos hi]
  · exact Layout.length_elements hparts.2 (by simpa using hi)

theorem constantIndex_eq_ok {idx : Node} {count : Option Int64} (h : n.constantIndex idx = .ok i)
    (hlayout : n.layout = .array tag elem count size) :
    ∃ bound, count = some bound ∧ i < bound.toInt.toNat := by
  unfold constantIndex at h
  rw [hlayout] at h
  cases hconstant : idx.constant? with
  | none =>
    rw [hconstant] at h
    cases h
  | some c =>
    rw [hconstant] at h
    have hinside {bound : Int64} (hrange : ¬ (c.int < 0 ∨ c.int ≥ bound)) :
        c.int.toInt.toNat < bound.toInt.toNat := by
      rw [not_or, Int64.lt_iff_toInt_lt, ge_iff_le, Int64.le_iff_toInt_le] at hrange
      have hzero : (0 : Int64).toInt = 0 := rfl
      omega
    cases count with
    | none =>
      dsimp only at h
      split at h
      · cases h
      next hrange => exact absurd (hinside hrange) (by simp)
    | some bound =>
      dsimp only at h
      split at h
      · cases h
      next hrange =>
        cases h
        exact ⟨bound, rfl, hinside hrange⟩

end Node

end TreeWasm
