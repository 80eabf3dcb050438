import TreeWasm.Proofs.Validation.Places

/-! # Types of stores

Code that writes a value to a place leaves the stack as it was. A literal is written part by part,
and each part of the place takes what the part of the literal has.
-/

namespace TreeWasm

open Wasm

open Wasm.Instr (AllValid)

namespace Layout

variable {union : Bool} {field : Field Layout} {size : Int64} {elem l m : Layout}
  {fields others : List (Field Layout)} {parts : List Layout} {i slot : Nat} {tag : TypeTag}

theorem forall₂_of_fieldForms (h : fieldForms fields = fieldForms others) :
    List.Forall₂ (fun field other => field.slot = other.slot ∧ field.layout.Fits other.layout)
      fields others := by
  induction fields generalizing others with
  | nil =>
    cases others with
    | nil => exact .nil
    | cons other others => cases h
  | cons field fields ih =>
    cases others with
    | nil => cases h
    | cons other others =>
      obtain ⟨hfield, hfields⟩ := List.cons.inj h
      obtain ⟨_, hlayout, _, hslot⟩ := Field.mk.inj hfield
      exact .cons ⟨hslot, hlayout⟩ (ih hfields)

theorem FieldsPlaced.of_forall₂
    (h : List.Forall₂ (fun field other => field.slot = other.slot ∧ field.layout.Fits other.layout)
      fields others) (hplaced : FieldsPlaced slot fields) : FieldsPlaced slot others := by
  induction h generalizing slot with
  | nil => trivial
  | cons hfield _ ih =>
    obtain ⟨hslot, hlayout⟩ := hfield
    obtain ⟨hfirst, hrest⟩ := hplaced
    rw [hlayout.slots_eq] at hrest
    exact ⟨hslot.symm.trans hfirst, ih hrest⟩

theorem exists_struct_of_fits (h : (struct tag union size fields).Fits m) :
    ∃ tag others, m = struct tag union size others ∧ fieldForms fields = fieldForms others := by
  cases m with
  | void => cases h
  | scalar tag kind => cases kind <;> cases h
  | array tag elem count size => cases count <;> cases h
  | struct tag _ _ others =>
    obtain ⟨_, rfl, rfl, hforms⟩ := Layout.struct.inj h
    exact ⟨tag, others, rfl, hforms⟩

theorem exists_array_of_fits {count : Int64} (h : (array tag elem (some count) size).Fits m) :
    ∃ tag other, m = array tag other (some count) size ∧ elem.Fits other := by
  cases m with
  | void | struct => cases h
  | scalar tag kind =>
    rw [Fits, form, form] at h
    split at h <;> simp at h
  | array tag other bound _ =>
    cases bound with
    | none => simp [Fits, form] at h
    | some _ =>
      obtain ⟨_, helem, hcount, rfl⟩ := Layout.array.inj h
      obtain rfl := Option.some.inj hcount
      exact ⟨tag, other, rfl, helem⟩

/-- A literal has the parts of every layout that it fits. -/
theorem TakesParts.of_fits (h : l.TakesParts parts) (hfits : l.Fits m) : m.TakesParts parts := by
  cases l with
  | void tag | scalar tag kind => exact h.elim
  | struct tag union size fields =>
    obtain ⟨_, others, rfl, hforms⟩ := exists_struct_of_fits hfits
    obtain ⟨hunion, hplaced, hparts⟩ := h
    have hrow := forall₂_of_fieldForms hforms
    refine ⟨hunion, hplaced.of_forall₂ hrow, ?_⟩
    rw [List.forall₂_map_right_iff] at hparts ⊢
    exact forall₂_trans (fun _ _ _ hpart hfield => hpart.trans hfield.2) hparts hrow
  | array tag elem count size =>
    cases count with
    | none => exact h.elim
    | some count =>
      obtain ⟨_, other, rfl, helem⟩ := exists_array_of_fits hfits
      exact ⟨h.1, fun part hpart => (h.2 part hpart).trans helem⟩

theorem FieldsPlaced.slot_eq (h : FieldsPlaced slot fields) (hfield : fields[i]? = some field) :
    field.slot = slot + ((fields.map (fun f => f.layout.slots)).take i).flatten.length := by
  induction fields generalizing i slot with
  | nil => cases hfield
  | cons first rest ih =>
    obtain ⟨hfirst, hrest⟩ := h
    cases i with
    | zero =>
      obtain rfl := Option.some.inj hfield
      exact hfirst
    | succ i =>
      rw [ih hrest hfield]
      simp [Nat.add_assoc]

theorem TakesParts.slots_eq (h : l.TakesParts parts) (hok : ∀ part ∈ parts, part.leaves.isOk) :
    l.slots = (parts.map slots).flatten := by
  rw [slots, (h.kinds_eq hok).2, List.map_flatMap, List.flatMap_def]
  rfl

theorem exists_field_of_takesParts (h : (struct tag union size fields).TakesParts parts)
    (hm : parts[i]? = some m) :
    ∃ field, fields[i]? = some field ∧ m.Fits field.layout ∧
      field.slot = ((parts.map slots).take i).flatten.length := by
  obtain ⟨_, hplaced, hparts⟩ := h
  rw [List.forall₂_map_right_iff] at hparts
  have hrows : parts.map slots = fields.map (fun f => f.layout.slots) := by
    rw [map_eq_map_iff_forall₂]
    exact hparts.imp (fun _ _ hfits => hfits.slots_eq)
  obtain ⟨field, hfield, hfits⟩ := exists_of_forall₂ hparts hm
  refine ⟨field, hfield, hfits, ?_⟩
  rw [hrows, hplaced.slot_eq hfield, Nat.zero_add]

/-- Where an element begins among the slots of its array. -/
theorem length_elements (h : ∀ part ∈ parts, part.Fits elem) (hi : i < parts.length) :
    i * elem.slots.length = ((parts.map slots).take i).flatten.length := by
  have hrows : parts.map slots = List.replicate parts.length elem.slots := by
    refine List.eq_replicate_iff.mpr ⟨List.length_map _, fun row hrow => ?_⟩
    obtain ⟨part, hpart, rfl⟩ := List.mem_map.mp hrow
    exact (h part hpart).slots_eq
  rw [hrows, List.take_replicate, Nat.min_eq_left (Nat.le_of_lt hi)]
  simp

theorem selectIndex_struct (h : fields[i]? = some field) :
    (struct tag union size fields).selectIndex i = .ok field := by
  have hindex : ¬ (i : Int) < 0 := by omega
  simp [selectIndex, Layout.fields, h, hindex]

end Layout

namespace Place

variable {info : Info} {i : Nat}

/-- A place for values of a layout, under tables of which something is known. -/
def Takes (site : Site) (ctx : EmitContext) (known : Tables → Prop) (l : Layout) : Place → Prop
  | slots info held =>
    l.Fits info.layout ∧ ∀ tables, known tables → held.map tables.slots = l.slots.map some
  | memory info address _ => l.Fits info.layout ∧ address.Valid site ctx known
  | none .. => False

variable {site : Site} {ctx : EmitContext} {known : Tables → Prop} {l m : Layout} {parts : List Layout}

theorem map_slotRange {held : List Nat} {slots : Nat → Option ValType}
    {rows : List (List ValType)} {row : List ValType} {first : Nat}
    (h : held.map slots = rows.flatten.map some) (hrow : rows[i]? = some row)
    (hfirst : first = (rows.take i).flatten.length) :
    (Node.slotRange held first row.length).map slots = row.map some := by
  rw [Node.slotRange, List.map_take, List.map_drop, h, ← List.map_drop, ← List.map_take, hfirst,
    take_drop_flatten hrow]

/-- The part of a place in slots that a part of a literal goes to. -/
theorem exists_part_slots (held : List Nat) (hparts : info.layout.TakesParts parts)
    (hm : parts[i]? = some m) (hok : m.leaves.isOk) :
    ∃ target first, (slots info held).part i =
        .ok (slots ⟨info.pos, target⟩ (Node.slotRange held first m.slots.length)) ∧ m.Fits target ∧
      first = ((parts.map Layout.slots).take i).flatten.length := by
  obtain ⟨pos, layout⟩ := info
  cases layout with
  | void | scalar => exact hparts.elim
  | struct tag union size fields =>
    obtain ⟨field, hfield, hlayout, hslot⟩ := Layout.exists_field_of_takesParts hparts hm
    refine ⟨field.layout, field.slot, ?_, hlayout, hslot⟩
    simp only [Place.part, Layout.selectIndex_struct hfield, Except.mapError, bind, Except.bind,
      Layout.flatten_eq (hlayout.isOk_leaves hok), hlayout.slots_eq]
    rfl
  | array tag elem count size =>
    cases count with
    | none => exact hparts.elim
    | some count =>
      obtain ⟨hcount, helems⟩ := hparts
      have hlayout : m.Fits elem := helems m (List.mem_of_getElem? hm)
      have hi : i < parts.length := (List.getElem?_eq_some_iff.mp hm).1
      have hbound : ¬ Int64.ofNat i ≥ count := by
        have hlimit := count.toInt_lt
        rw [ge_iff_le, Int64.le_iff_toInt_le, Int64.toInt_ofNat_of_lt (by omega)]
        omega
      refine ⟨elem, i * elem.slots.length, ?_, hlayout, Layout.length_elements helems hi⟩
      simp only [Place.part, Option.getD_some, if_neg hbound, Except.mapError, bind, Except.bind,
        Layout.flatten_eq (hlayout.isOk_leaves hok), hlayout.slots_eq]
      rfl

/-- The part of a place in memory that a part of a literal goes to. -/
theorem exists_part_memory {address : Address} {offset : Int64}
    (hparts : info.layout.TakesParts parts) (hm : parts[i]? = some m) :
    ∃ target address' offset', (memory info address offset).part i =
        .ok (memory ⟨info.pos, target⟩ address' offset') ∧ m.Fits target ∧
      (address' = address ∨ ∃ size, address' = address.offsetBy info.pos (Int32.ofNat i) size) := by
  obtain ⟨pos, layout⟩ := info
  cases layout with
  | void | scalar => exact hparts.elim
  | struct tag union size fields =>
    obtain ⟨field, hfield, hlayout, _⟩ := Layout.exists_field_of_takesParts hparts hm
    refine ⟨field.layout, address, offset + field.offset, ?_, hlayout, .inl rfl⟩
    simp only [Place.part, Layout.selectIndex_struct hfield, Except.mapError, bind, Except.bind]
    rfl
  | array tag elem count size =>
    cases count with
    | none => exact hparts.elim
    | some count =>
      exact ⟨elem, _, offset, rfl, hparts.2 m (List.mem_of_getElem? hm), .inr ⟨elem.size, rfl⟩⟩

/-- A part of a place takes the values that a literal has at this part. -/
theorem Takes.part {place target : Place} (h : place.Takes site ctx known l)
    (hparts : l.TakesParts parts) (hok : ∀ part ∈ parts, part.leaves.isOk)
    (hm : parts[i]? = some m) (htarget : place.part i = .ok target) :
    target.Takes site ctx known m := by
  cases place with
  | slots info held =>
    obtain ⟨hfits, hheld⟩ := h
    obtain ⟨layout, first, hpart, hlayout, hfirst⟩ :=
      exists_part_slots held (hparts.of_fits hfits) hm (hok m (List.mem_of_getElem? hm))
    rw [hpart] at htarget
    cases htarget
    have hrow : (parts.map Layout.slots)[i]? = some m.slots := by rw [List.getElem?_map, hm]; rfl
    rw [hparts.slots_eq hok] at hheld
    exact ⟨hlayout, fun tables hknown => map_slotRange (hheld tables hknown) hrow hfirst⟩
  | memory info address offset =>
    obtain ⟨hfits, haddress⟩ := h
    obtain ⟨layout, _, _, hpart, hlayout, hmoved⟩ := exists_part_memory (hparts.of_fits hfits) hm
    rw [hpart] at htarget
    cases htarget
    obtain rfl | ⟨size, rfl⟩ := hmoved
    · exact ⟨hlayout, haddress⟩
    · exact ⟨hlayout, haddress.offsetBy _ _ _⟩
  | none pos form => exact h.elim

end Place

namespace Emit.Ensures

variable {site : Site} {ctx : EmitContext} {known : Tables → Prop} {l : Layout} {place : Place}

theorem consume_valid (h : place.Takes site ctx known l) : place.consume.Valid site ctx known l.slots [] := by
  cases place with
  | slots info held => exact .pure (fun tables hknown => .localSets (h.2 tables hknown))
  | none pos form => exact h.elim
  | memory info address offset =>
    obtain ⟨hfits, haddress⟩ := h
    refine Ensures.allocScratch.bind (fun held => ?_)
    have hstore := storeSlots_valid (haddress.mono (fun tables (hknown : known tables ∧
      held.map tables.slots = info.layout.slots.map some) => hknown.1)) offset (fun _ hknown => hknown.2)
    refine hstore.bind (fun code => Ensures.releaseScratch.bind (fun _ => .pure
      (fun tables _ hcode hheld hknown => ?_)))
    rw [hfits.slots_eq]
    exact (AllValid.localSets hheld.2).append (hcode ⟨hknown, hheld.2⟩)

theorem storeLoaded_valid {load : Emit Code} (hload : load.Valid site ctx known [] l.slots)
    (h : place.Takes site ctx known l) :
    (Emission.storeLoaded load place).Valid site ctx known [] [] := by
  cases place with
  | slots info held =>
    exact hload.bind (fun code => .pure (fun tables hcode hknown =>
      (hcode hknown).append (.localSets (h.2 tables hknown))))
  | none pos form => exact h.elim
  | memory info address offset =>
    rw [Emission.storeLoaded]
    split
    next hscalar =>
      obtain ⟨hfits, haddress⟩ := h
      obtain ⟨kind, hkind⟩ := Option.isSome_iff_exists.mp hscalar
      have hslots : l.slots = [kind.slot] := by
        rw [hfits.slots_eq, Layout.slots_of_isScalar hscalar, Layout.slot_of_scalar? hkind]
      rw [hslots] at hload
      refine haddress.code.bind (fun target => hload.bind (fun value =>
        Ensures.ofLayout.bind (fun store => .pure (fun tables hstore hvalue htarget hknown => ?_))))
      exact ((htarget hknown).append ((hvalue hknown).push [.i32])).append
        (.single (Layout.valid_store hkind hstore))
    · refine hload.bind (fun value => (consume_valid h).bind (fun code => .pure
        (fun tables hcode hvalue hknown => (hvalue hknown).append (hcode hknown))))

end Emit.Ensures

/-! ## The roles of a node

The code of a node pushes a value, or writes it to any place for its layout. A literal writes its parts
as these are written, so both roles of its parts are needed for one role of its own.
-/

open Wasm.Instr (AllValid)

open Emit (Ensures)

namespace Emission

variable {info : Info} {n : Node}

/-- Code of these roles is valid: it pushes a value of a layout, or writes one to a place for it. -/
structure Valid (site : Site) (ctx : EmitContext) (base : Tables → Prop) (l : Layout)
    (e : Emission) : Prop where
  load : Ensures ctx e.load (fun code tables =>
    base tables → AllValid tables site code [] l.slots)
  store : ∀ known place, (∀ tables, known tables → base tables) →
    place.Takes site ctx known l →
    Ensures ctx (e.store place) (fun code tables =>
      known tables → AllValid tables site code [] [])

variable {site : Site} {ctx : EmitContext} {base known : Tables → Prop} {l : Layout}

theorem valid_ofValue {value : Emit Code}
    (h : value.Valid site ctx base [] l.slots) :
    (ofValue n value).Valid site ctx base l := by
  have hload : (ofValue n value).load.Valid site ctx base [] l.slots :=
    .map (h.mono (fun code tables hcode hbase => (hcode hbase).mark n.pos))
  refine ⟨hload, fun known place hknown hplace => Ensures.storeLoaded_valid ?_ hplace⟩
  exact hload.mono (fun code tables hcode hmore => hcode (hknown tables hmore))

/-- A value in slots. To memory it is copied slot by slot. -/
theorem valid_ofLocals {held : List Nat}
    (h : ∀ tables, base tables → held.map tables.slots = info.layout.slots.map some) :
    (ofLocals info held).Valid site ctx base info.layout := by
  have hplain : (ofValue (.locals info held) (return held.map .localGet)).Valid site ctx base
      info.layout := valid_ofValue (.pure (fun tables hbase => .localGets (h tables hbase)))
  refine ⟨hplain.load, fun known place hknown hplace => ?_⟩
  cases place with
  | slots | none => exact hplain.store known _ hknown hplace
  | memory target address offset =>
    dsimp only [ofLocals]
    split
    · exact hplain.store known _ hknown hplace
    · refine Ensures.storeSlots_valid hplace.2 offset (fun tables hmore => ?_)
      rw [← hplace.1.slots_eq]
      exact h tables (hknown tables hmore)

/-- A value in memory. To another place in memory it is copied piece by piece. -/
theorem valid_ofData {addr : Node} {address : Address} (h : address.Valid site ctx base)
    {offset : Int64} : (ofData info addr address offset).Valid site ctx base info.layout := by
  have hplain : (ofValue (.data info addr offset) (loadLeaves info address offset)).Valid site
      ctx base info.layout := valid_ofValue (Ensures.loadLeaves_valid h)
  refine ⟨hplain.load, fun known place hknown hplace => ?_⟩
  cases place with
  | slots | none => exact hplain.store known _ hknown hplace
  | memory target address offset =>
    dsimp only [ofData]
    split
    · exact hplain.store known _ hknown hplace
    · exact Ensures.copyMemory_valid hplace.2 (h.mono hknown)

theorem loadAll_valid {nodes : List Node}
    (h : ∀ n ∈ nodes, n.emission.Valid site ctx base n.layout) :
    (loadAll (Node.emissions nodes)).Valid site ctx base [] (nodes.flatMap (fun n => n.layout.slots)) := by
  rw [loadAll, Node.emissions_eq, List.mapM_map]
  exact .map (Ensures.mapM_valid (fun n hn => (h n hn).load))

/-- The remaining parts of a literal are written to the parts of a place. -/
theorem storeParts_valid {place : Place} {parts : List Layout} {rest : List Node} {index : Nat}
    (hknown : ∀ tables, known tables → base tables)
    (hplace : place.Takes site ctx known l) (hparts : l.TakesParts parts)
    (hok : ∀ part ∈ parts, part.leaves.isOk) (hrest : rest.map Node.layout = parts.drop index)
    (h : ∀ n ∈ rest, n.emission.Valid site ctx base n.layout) :
    (storeParts place index (Node.emissions rest)).Valid site ctx known [] [] := by
  induction rest generalizing index with
  | nil => exact .pure (fun _ _ => .nil [])
  | cons n rest ih =>
    have hn : parts[index]? = some n.layout := by
      rw [← List.head?_drop, ← hrest]
      rfl
    have hmore : rest.map Node.layout = parts.drop (index + 1) := by
      rw [← List.tail_drop, ← hrest]
      rfl
    rw [Node.emissions, storeParts]
    split
    · exact .throw
    next target htarget =>
      have htakes := hplace.part hparts hok hn htarget
      have hfirst := (h n (.head _)).store known target hknown htakes
      have hothers := ih hmore (fun other hother => h other (.tail _ hother))
      exact hfirst.bind (fun code => hothers.bind (fun more => .pure
        (fun tables hmore hcode hmany => (hcode hmany).append (hmore hmany))))

/-- A literal. It is written part by part, or as a whole by way of the stack. -/
theorem valid_ofLiteral {parts : List Node} (hparts : l.TakesParts (parts.map Node.layout))
    (hok : ∀ part ∈ parts, part.layout.leaves.isOk)
    (h : ∀ part ∈ parts, part.emission.Valid site ctx base part.layout) :
    (ofLiteral n (Node.emissions parts)).Valid site ctx base l := by
  have hok : ∀ part ∈ parts.map Node.layout, part.leaves.isOk := by
    simpa using hok
  have hslots : l.slots = parts.flatMap (fun n => n.layout.slots) := by
    rw [hparts.slots_eq hok, List.map_map, List.flatMap_def]
    rfl
  have hplain : (ofValue n (loadAll (Node.emissions parts))).Valid site ctx base l := by
    refine valid_ofValue ?_
    rw [hslots]
    exact loadAll_valid h
  refine ⟨hplain.load, fun known place hknown hplace => ?_⟩
  have hstore := hplain.store known place hknown hplace
  cases place with
  | none => exact hstore
  | slots info held =>
    dsimp only [ofLiteral, storeLiteral]
    split
    · exact hstore
    · exact storeParts_valid hknown hplace hparts hok List.drop_zero.symm h
  | memory info address offset =>
    dsimp only [ofLiteral, storeLiteral]
    split
    · exact hstore
    · refine (hplace.2.hold _).bind_of (fun held hvalid => ?_)
      obtain ⟨_, hkept, _⟩ := hvalid
      have htakes : (Place.memory info held.2.1 offset).Takes site ctx
          (fun tables => known tables ∧ tables.Words held.2.2) l := ⟨hplace.1, hkept⟩
      have hcode := storeParts_valid (fun tables hmore => hknown tables hmore.1) htakes hparts hok
        List.drop_zero.symm h
      refine hcode.bind (fun code => Ensures.releaseScratch.bind (fun _ => .pure
        (fun tables _ hcode hheld hmore => ?_)))
      exact (hheld.2.2 hmore).append (hcode ⟨hmore, hheld.2.1⟩)

end Emission

end TreeWasm
