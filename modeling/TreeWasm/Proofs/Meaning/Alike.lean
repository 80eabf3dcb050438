import TreeWasm.Proofs.Meaning.Scalar

/-! # Layouts that represent values alike

Two occurrences of a type have layouts of their own, with the same slots in the same places. What a
layout says about representation is its form: the layout without the types it belongs to, an array
without a length being an address. Values of one layout fit another one of the same form.
-/

namespace TreeWasm

open Wasm

namespace Layout

variable {k l m : Layout} {op : Operator} {kind : Scalar} {type : ValType}

/-- A tag that names no type. -/
def blank : TypeTag := ⟨.openArray, ""⟩

mutual

/-- The layout without the types it belongs to. -/
def form : Layout → Layout
  | void _ => void blank
  | scalar _ kind =>
    if kind = .pointer then array blank (void blank) none (Int64.ofNat openArraySize)
    else scalar blank kind
  | struct _ union size fields => struct blank union size (fieldForms fields)
  | array _ _ none size => array blank (void blank) none size
  | array _ elem (some count) size => array blank (form elem) (some count) size

def fieldForms : List (Field Layout) → List (Field Layout)
  | [] => []
  | ⟨name, layout, offset, slot⟩ :: rest => ⟨name, form layout, offset, slot⟩ :: fieldForms rest

end

/-- A value of the first layout can be kept where one of the second is expected. -/
def Fits (l m : Layout) : Prop := l.form = m.form

/-- The two layouts cannot be told apart by what is computed with their values. -/
def Alike (l m : Layout) : Prop := l.Fits m ∧ l.scalar? = m.scalar?

theorem Fits.refl (l : Layout) : l.Fits l := rfl

theorem Fits.symm (h : l.Fits m) : m.Fits l := Eq.symm h

theorem Fits.trans (h : l.Fits m) (h' : m.Fits k) : l.Fits k := Eq.trans h h'

theorem Alike.refl (l : Layout) : l.Alike l := ⟨.refl l, rfl⟩

theorem Alike.symm (h : l.Alike m) : m.Alike l := ⟨h.1.symm, h.2.symm⟩

theorem Alike.trans (h : l.Alike m) (h' : m.Alike k) : l.Alike k := ⟨h.1.trans h'.1, h.2.trans h'.2⟩

/-! ## Slots and their places -/

/-- The slots of a layout with their places in memory; none for a union. -/
def spots (l : Layout) : Option (List (Int64 × Scalar)) :=
  l.leaves.toOption.map (fun leaves => leaves.map (fun leaf => (leaf.offset, leaf.kind)))

def fieldSpots (fields : List (Field Layout)) : Option (List (Int64 × Scalar)) :=
  (fieldLeaves fields).toOption.map (fun leaves => leaves.map (fun leaf => (leaf.offset, leaf.kind)))

/-- A place further on in memory. -/
def shiftSpot (base : Int64) (spot : Int64 × Scalar) : Int64 × Scalar := (base + spot.1, spot.2)

theorem spots_struct (tag : TypeTag) (union : Bool) (size : Int64) (fields : List (Field Layout)) :
    (struct tag union size fields).spots = if union then none else fieldSpots fields := by
  cases union <;> simp [spots, fieldSpots, leaves, Except.toOption]

theorem spots_array_some (tag : TypeTag) (elem : Layout) (count size : Int64) :
    (array tag elem (some count) size).spots =
      if count ≤ 0 then some []
      else elem.spots.map (fun row => (List.range count.toInt.toNat).flatMap (fun i =>
        row.map (shiftSpot (Int64.ofNat i * elem.size)))) := by
  by_cases hcount : count ≤ 0
  · simp [spots, leaves, hcount, Except.toOption]
  · cases hrow : elem.leaves with
    | error defect => simp [spots, leaves, hcount, hrow, Except.toOption]
    | ok row =>
      simp [spots, leaves, hcount, hrow, Except.toOption, List.map_flatMap, Leaf.shift, shiftSpot,
        Function.comp_def]

theorem fieldSpots_cons (name : String) (layout : Layout) (offset : Int64) (slot : Nat)
    (rest : List (Field Layout)) :
    fieldSpots (⟨name, layout, offset, slot⟩ :: rest) =
      layout.spots.bind (fun row => (fieldSpots rest).map (fun more =>
        row.map (shiftSpot offset) ++ more)) := by
  cases hrow : layout.leaves with
  | error defect => simp [spots, fieldSpots, fieldLeaves, hrow, Except.toOption]
  | ok row =>
    cases hmore : fieldLeaves rest with
    | error defect => simp [spots, fieldSpots, fieldLeaves, hrow, hmore, Except.toOption]
    | ok more =>
      simp [spots, fieldSpots, fieldLeaves, hrow, hmore, Except.toOption, Leaf.shift, shiftSpot,
        Function.comp_def]

theorem size_form : l.form.size = l.size := by
  cases l with
  | scalar tag kind => cases kind <;> rfl
  | array tag elem count size => cases count <;> rfl
  | _ => rfl

mutual

/-- The form of a layout has its slots in the same places. -/
theorem spots_form : (l : Layout) → l.form.spots = l.spots
  | void _ => rfl
  | scalar _ kind => by cases kind <;> rfl
  | struct _ union _ fields => by
    rw [form, spots_struct, spots_struct, fieldSpots_fieldForms fields]
  | array _ _ none _ => rfl
  | array _ elem (some count) _ => by
    rw [form, spots_array_some, spots_array_some, spots_form elem, size_form]

theorem fieldSpots_fieldForms : (fields : List (Field Layout)) →
    fieldSpots (fieldForms fields) = fieldSpots fields
  | [] => rfl
  | ⟨_, layout, _, _⟩ :: rest => by
    rw [fieldForms, fieldSpots_cons, fieldSpots_cons, spots_form layout, fieldSpots_fieldForms rest]

end

theorem Fits.spots_eq (h : l.Fits m) : l.spots = m.spots := by
  rw [← spots_form l, ← spots_form m, h]

theorem kinds_eq (l : Layout) : l.kinds = (l.spots.getD []).map Prod.snd := by
  unfold kinds spots
  cases l.leaves <;> simp [Except.toOption, Function.comp_def]

theorem Fits.kinds_eq (h : l.Fits m) : l.kinds = m.kinds := by
  rw [Layout.kinds_eq l, Layout.kinds_eq m, h.spots_eq]

theorem isOk_leaves_iff : l.leaves.isOk ↔ l.spots.isSome := by
  unfold spots
  cases l.leaves <;> simp [Except.toOption, Except.isOk, Except.toBool]

theorem Fits.isOk_leaves (h : l.Fits m) (hl : l.leaves.isOk) : m.leaves.isOk := by
  rw [isOk_leaves_iff] at hl ⊢
  rwa [← h.spots_eq]

/-- The value types of the slots of a layout. -/
def slots (l : Layout) : List ValType := l.kinds.map Scalar.slot

theorem Fits.slots_eq (h : l.Fits m) : l.slots = m.slots := by
  rw [slots, slots, h.kinds_eq]

theorem flatten_eq (h : l.leaves.isOk) : l.flatten = .ok l.slots := by
  unfold flatten slots kinds
  cases hl : l.leaves with
  | error defect => simp [hl, Except.isOk, Except.toBool] at h
  | ok leaves => simp [Except.map, Leaf.slot, Function.comp_def]

theorem slots_of_flatten {types : List ValType} (h : l.flatten = .ok types) :
    l.leaves.isOk ∧ l.slots = types := by
  cases hl : l.leaves with
  | error defect => simp [flatten, hl, Except.map] at h
  | ok leaves =>
    have hok : l.leaves.isOk := by rw [hl]; rfl
    rw [flatten_eq hok] at h
    exact ⟨hl ▸ hok, Except.ok.inj h⟩

/-! ## Scalars and `void` -/

theorem isVoid_form (l : Layout) : l.form.isVoid = l.isVoid := by
  cases l with
  | scalar tag kind => cases kind <;> rfl
  | array tag elem count size => cases count <;> rfl
  | _ => rfl

theorem Fits.isVoid_eq (h : l.Fits m) : l.isVoid = m.isVoid := by
  rw [← isVoid_form l, ← isVoid_form m, h]

theorem kinds_of_isVoid (h : l.isVoid) : l.kinds = [] := by
  cases l <;> simp_all [isVoid, kinds, leaves]

section

variable (h : l.scalar? = some kind)
include h

theorem kinds_of_scalar? : l.kinds = [kind] := by
  cases l <;> simp_all [scalar?, kinds, leaves]

theorem isOk_leaves_of_scalar? : l.leaves.isOk := by
  cases l <;> simp_all [scalar?, leaves, Except.isOk, Except.toBool]

theorem size_of_scalar? : l.size = Int64.ofNat kind.size := by
  cases l <;> simp_all [scalar?, size]

theorem slot_of_scalar? : l.slot = kind.slot := by
  simp [slot, h]

end

theorem exists_scalar_of_slot (h : l.slot = type) (htype : type ≠ .invalid) :
    ∃ kind, l.scalar? = some kind ∧ kind.slot = type := by
  cases hl : l.scalar? with
  | none => simp [slot, hl] at h; exact absurd h.symm htype
  | some kind => exact ⟨kind, rfl, by simpa [slot, hl] using h⟩

theorem isOk_leaves_of_isScalar (h : l.isScalar) : l.leaves.isOk := by
  obtain ⟨kind, hkind⟩ := Option.isSome_iff_exists.mp h
  exact isOk_leaves_of_scalar? hkind

theorem isOk_leaves_of_isVoid (h : l.isVoid) : l.leaves.isOk := by
  cases l with
  | void tag => rfl
  | _ => cases h

theorem isScalar_of_slot (h : l.slot = type) (htype : type ≠ .invalid) : l.isScalar := by
  obtain ⟨kind, hkind, _⟩ := exists_scalar_of_slot h htype
  rw [isScalar, hkind]
  rfl

theorem slots_of_isScalar (h : l.isScalar) : l.slots = [l.slot] := by
  obtain ⟨kind, hkind⟩ := Option.isSome_iff_exists.mp h
  rw [slots, kinds_of_scalar? hkind, slot_of_scalar? hkind, List.map_singleton]

theorem slots_of_slot (h : l.slot = type) (htype : type ≠ .invalid) : l.slots = [type] := by
  rw [slots_of_isScalar (isScalar_of_slot h htype), h]

theorem slots_of_isVoid (h : l.isVoid) : l.slots = [] := by
  rw [slots, kinds_of_isVoid h, List.map_nil]

theorem isScalar_of_slot_eq (hm : m.isScalar) (h : l.slot = m.slot) : l.isScalar := by
  obtain ⟨kind, hkind⟩ := Option.isSome_iff_exists.mp hm
  refine isScalar_of_slot (h.trans (slot_of_scalar? hkind)) ?_
  cases kind <;> decide

theorem isScalar_of_isFloat (h : l.isFloat) : l.isScalar := by
  cases l with
  | scalar tag kind => rfl
  | _ => cases h

theorem slot_of_isFloat (h : l.isFloat) : l.slot = .f32 ∨ l.slot = .f64 := by
  cases l with
  | scalar tag kind =>
    cases kind with
    | f32 => exact .inl rfl
    | f64 => exact .inr rfl
    | _ => cases h
  | _ => cases h

theorem exists_of_arith (h : (l.arith op).isOk) :
    ∃ kind a instr, l.scalar? = some kind ∧ op = .arith a ∧ kind.arith? a = some instr := by
  unfold arith at h
  split at h
  next kind a hkind =>
    cases hinstr : kind.arith? a with
    | none => simp [hinstr, Except.isOk, Except.toBool] at h
    | some instr => exact ⟨kind, a, instr, hkind, rfl, hinstr⟩
  · cases h

theorem isScalar_of_arith (h : (l.arith op).isOk) : l.isScalar := by
  obtain ⟨kind, _, _, hkind, _⟩ := exists_of_arith h
  rw [isScalar, hkind]
  rfl

theorem exists_of_compare (h : (l.compare op).isOk) :
    ∃ kind rel, l.scalar? = some kind ∧ op = .relation rel := by
  unfold compare at h
  split at h
  next kind rel hkind => exact ⟨kind, rel, hkind, rfl⟩
  · cases h

theorem isScalar_of_compare (h : (l.compare op).isOk) : l.isScalar := by
  obtain ⟨kind, _, hkind, _⟩ := exists_of_compare h
  rw [isScalar, hkind]
  rfl

theorem alike_of_isVoid (hl : l.isVoid) (hm : m.isVoid) : l.Alike m := by
  cases l with
  | void tag =>
    cases m with
    | void tag => exact ⟨rfl, rfl⟩
    | _ => cases hm
  | _ => cases hl

theorem Alike.slot_eq (h : l.Alike m) : l.slot = m.slot := by
  rw [slot, slot, h.2]

theorem Alike.isScalar_eq (h : l.Alike m) : l.isScalar = m.isScalar := by
  rw [isScalar, isScalar, h.2]

theorem alike_of_scalar? (hl : l.scalar? = some kind) (hm : m.scalar? = some kind) : l.Alike m := by
  refine ⟨?_, hl.trans hm.symm⟩
  cases l <;> cases m <;> simp_all [scalar?, Fits, form]

end Layout

end TreeWasm
