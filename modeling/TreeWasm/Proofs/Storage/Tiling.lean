import TreeWasm.Proofs.Simplify.Addresses
import TreeWasm.Proofs.Storage.Sizes
import TreeWasm.Proofs.Typing.Layouts

/-! # The leaves of a layout tile it

The leaves of a value without unions lie one after the other from its first byte to its last. Those
of a field or an element stand in a row among them, each as far from the start of the part as in the
part alone. A part of a value in slots therefore has the slots of the very bytes that the same part of
the value in memory has.
-/

namespace TreeWasm

open Wasm
open Leaf (shift)

namespace Layout

variable {a : BitVec 32} {v : Int32} {slots : List Nat} {count first : Nat} {addr : Node} {pos : Position}

/-- Leaves lie one after the other, from one byte to another. -/
def Tiles (stop : Nat) : Nat → List Leaf → Prop
  | start, [] => start = stop
  | start, leaf :: rest => leaf.offset.toInt = start ∧ Tiles stop (start + leaf.kind.size) rest

/-- Fields follow one another in memory and in slots. -/
def FieldsPacked (stop : Int64) : Int64 → Nat → List (Field Layout) → Prop
  | offset, _, [] => offset = stop
  | offset, slot, field :: rest => field.offset = offset ∧ field.slot = slot ∧
    ∃ row, field.layout.leaves = .ok row ∧
      FieldsPacked stop (offset + field.layout.size) (slot + row.length) rest

/-- No part of a layout is a union, and the parts of each part follow one another. -/
inductive Packed : Layout → Prop
  | void (tag) : Packed (.void tag)
  | scalar (tag kind) : Packed (.scalar tag kind)
  | struct {tag size fields} : FieldsPacked size 0 0 fields → (∀ field ∈ fields, Packed field.layout) →
      Packed (.struct tag false size fields)
  | openArray (tag elem) : Packed (.array tag elem none (Int64.ofNat openArraySize))
  | array {elem} (tag count) : Packed elem → Packed (.array tag elem (some count) (elem.size * count))

variable {start stop n i : Nat} {row leaves : List Leaf} {base size offset : Int64} {slot : Nat}
  {fields : List (Field Layout)} {field : Field Layout} {l elem : Layout}

namespace Tiles

theorem le (h : Tiles stop start leaves) : start ≤ stop := by
  induction leaves generalizing start with
  | nil => exact Nat.le_of_eq h
  | cons leaf rest ih => exact Nat.le_trans (Nat.le_add_right _ _) (ih h.2)

theorem range {leaf : Leaf} (h : Tiles stop start leaves) (hleaf : leaf ∈ leaves) :
    start ≤ leaf.offset.toInt ∧ leaf.offset.toInt + leaf.kind.size ≤ stop := by
  induction leaves generalizing start with
  | nil => cases hleaf
  | cons first rest ih =>
    have hle := h.2.le
    obtain rfl | hleaf := List.mem_cons.mp hleaf
    · have hfirst := h.1
      omega
    · have hrest := ih h.2 hleaf
      omega

theorem append (h : Tiles n start row) (h' : Tiles stop n leaves) : Tiles stop start (row ++ leaves) := by
  induction row generalizing start with
  | nil => exact h ▸ h'
  | cons leaf rest ih => exact ⟨h.1, ih h.2⟩

/-- Leaves can be moved, as long as the end does not overflow. -/
theorem shift (h : Tiles stop start row) (hbase : base.toInt = n) (hstop : n + stop < 2 ^ 63) :
    Tiles (n + stop) (n + start) (row.map (shift base)) := by
  induction row generalizing start with
  | nil => exact congrArg (n + ·) h
  | cons leaf rest ih =>
    have hle := h.2.le
    refine ⟨toInt_add_of_lt hbase h.1 (by omega), ?_⟩
    rw [Nat.add_assoc]
    exact ih h.2

end Tiles

/-! ## Layouts that are packed -/

theorem fieldsPacked_of_placeStruct {build : Ty → Except LayoutDefect Layout}
    {bindings : List (String × Ty)} (h : placeStruct build offset slot bindings = .ok (size, fields)) :
    FieldsPacked size offset slot fields := by
  induction bindings generalizing offset slot fields with
  | nil =>
    cases h
    rfl
  | cons binding rest ih =>
    obtain ⟨l, -, h⟩ := Except.exists_of_bind h
    obtain ⟨row, hrow, h⟩ := Except.exists_of_bind h
    obtain ⟨⟨size', fields'⟩, hrest, h⟩ := Except.exists_of_bind h
    cases h
    exact ⟨rfl, rfl, row, hrow, ih hrest⟩

theorem packed_ofTypeWith {aggregate : Nat → Except LayoutDefect Layout} {text : Ty → String}
    {holds : Nat → Bool} (haggregate : ∀ id l, aggregate id = .ok l → holds id = false → l.Packed) :
    (t : Ty) → {l : Layout} → ofTypeWith aggregate text t = .ok l → t.holdsUnionWith holds = false → l.Packed
  | .absent, _, h, _ => nomatch h
  | .location elem, _, h, hunion => packed_ofTypeWith haggregate elem h hunion
  | .builtin b, _, h, _ => by
    cases b with
    | error | unknown => cases h
    | _ => exact (Except.ok.inj h) ▸ by constructor
  | .pointer .., _, h, _ => (Except.ok.inj h) ▸ .scalar _ _
  | .array _ length elem, _, h, hunion => by
    obtain ⟨el, hel, rfl⟩ := ofTypeWith_array h
    cases length with
    | none => exact .openArray _ _
    | some count => exact .array _ count (packed_ofTypeWith haggregate elem hel hunion)
  | .function .., _, h, _ => nomatch h
  | .aggregate id, l, h, hunion => haggregate id l h hunion

theorem packed_ofAggregate {table : TypeTable} {depth id : Nat}
    (h : ofAggregate table depth id = .ok l)
    (hunion : table.aggregateHoldsUnion (depth + 1) id = false) : l.Packed := by
  induction depth generalizing id l with
  | zero => cases h
  | succ depth ih =>
    obtain ⟨a, size, fields, ha, rfl, hplaced⟩ := ofAggregate_eq_ok h
    rw [TypeTable.aggregateHoldsUnion, ha] at hunion
    simp only [Bool.or_eq_false_iff, List.any_eq_false] at hunion
    obtain ⟨hstruct, hfields⟩ := hunion
    rw [hstruct] at hplaced ⊢
    refine .struct (fieldsPacked_of_placeStruct hplaced) ?_
    refine forall_mem_of_forall₂ (placeStruct_eq_ok hplaced).1 hfields (fun binding field hbuilds hfield => ?_)
    exact packed_ofTypeWith (fun _ _ => ih) _ hbuilds.2 (by simpa using hfield)

/-! ## Packed layouts are tiled -/

/-- The leaves of a layout tile its bytes, unless these are too many. -/
def Tiled (l : Layout) : Prop :=
  l.Counted → l.bytes < 2 ^ 63 →
    ∃ leaves, l.leaves = .ok leaves ∧ Tiles l.bytes 0 leaves ∧ l.size.toInt = l.bytes

theorem FieldsPacked.tiled (h : FieldsPacked size offset slot fields)
    (hfields : ∀ field ∈ fields, field.layout.Tiled) (hcounted : AllCounted fields)
    (hoffset : offset.toInt = n) (hbytes : n + total fields < 2 ^ 63) :
    ∃ leaves, fieldLeaves fields = .ok leaves ∧ Tiles (n + total fields) n leaves ∧
      size.toInt = (n + total fields : Nat) := by
  induction fields generalizing offset slot n with
  | nil => exact ⟨[], rfl, rfl, h ▸ hoffset⟩
  | cons field rest ih =>
    obtain ⟨rfl, -, _, -, hrest⟩ := h
    rw [total, ← Nat.add_assoc] at hbytes ⊢
    obtain ⟨row, hrow, htiles, hsize⟩ := hfields field (.head _) hcounted.1 (by omega)
    have hnext := toInt_add_of_lt hoffset hsize (by omega)
    obtain ⟨more, hmore, htilesmore, hend⟩ :=
      ih hrest (fun f hf => hfields f (.tail _ hf)) hcounted.2 hnext hbytes
    refine ⟨row.map (shift field.offset) ++ more, by simp only [fieldLeaves, hrow, hmore], ?_, hend⟩
    exact (htiles.shift hoffset (by omega)).append htilesmore

theorem leaves_array {tag : TypeTag} {count : Int64} (row : List Leaf)
    (h : 0 < count.toInt → elem.leaves = .ok row) :
    (array tag elem (some count) size).leaves = .ok ((List.range count.toInt.toNat).flatMap (fun i =>
      row.map (shift (Int64.ofNat i * elem.size)))) := by
  rw [leaves]
  split
  next hle =>
    rw [Int64.le_iff_toInt_le] at hle
    rw [Int.toNat_of_nonpos hle]
    rfl
  next hlt =>
    rw [Int64.le_iff_toInt_le] at hlt
    rw [h (by simpa using hlt)]

theorem tiles_elements (htiles : Tiles stop 0 row) (hsize : size.toInt = stop)
    (hbytes : stop * count < 2 ^ 63) (hcount : count < 2 ^ 63) :
    Tiles (stop * count) 0 ((List.range count).flatMap (fun i =>
      row.map (shift (Int64.ofNat i * size)))) := by
  induction count with
  | zero => rfl
  | succ count ih =>
    rw [Nat.mul_succ] at hbytes ⊢
    rw [List.range_succ, List.flatMap_append]
    refine (ih (by omega) (by omega)).append ?_
    have hbase : (Int64.ofNat count * size).toInt = (stop * count : Nat) := by
      rw [Nat.mul_comm] at hbytes ⊢
      exact toInt_mul_of_lt (Int64.toInt_ofNat_of_lt (by omega)) hsize (by omega)
    simpa using htiles.shift hbase hbytes

theorem Packed.tiled (h : l.Packed) : l.Tiled := by
  induction h with
  | void tag => exact fun _ _ => ⟨[], rfl, rfl, rfl⟩
  | scalar tag kind =>
    intro _ _
    refine ⟨_, rfl, ⟨rfl, Nat.zero_add _⟩, ?_⟩
    cases kind <;> rfl
  | struct hpacked _ ih =>
    intro hcounted hbytes
    obtain ⟨leaves, hleaves, htiles, hsize⟩ := hpacked.tiled (n := 0) ih hcounted rfl (by rwa [Nat.zero_add])
    rw [Nat.zero_add] at htiles hsize
    exact ⟨leaves, hleaves, htiles, hsize⟩
  | openArray tag elem => exact fun _ _ => ⟨_, rfl, ⟨rfl, rfl⟩, rfl⟩
  | @array elem tag count _ ih =>
    intro hcounted hbytes
    have hsize : (Layout.array tag elem (some count) (elem.size * count)).size.toInt = _ :=
      measured_array (fun hc hb => (ih hc hb).choose_spec.2.2) hcounted hbytes
    obtain ⟨hcount, hcounted⟩ := hcounted
    rw [bytes] at hbytes ⊢
    have hrow (hpos : 0 < count.toInt) := ih hcounted
      (Nat.lt_of_le_of_lt (Nat.le_mul_of_pos_right elem.bytes (show 0 < count.toInt.toNat by omega)) hbytes)
    by_cases hpos : 0 < count.toInt
    · obtain ⟨row, hrow, htiles, helem⟩ := hrow hpos
      have hbound := count.toInt_lt
      exact ⟨_, leaves_array row (fun _ => hrow), tiles_elements htiles helem hbytes (by omega), hsize⟩
    · refine ⟨_, leaves_array [] (absurd · hpos), ?_, hsize⟩
      rw [show count.toInt.toNat = 0 by omega]
      rfl

/-! ## Parts in slots and in memory -/

/-- The leaves of a field stand in a row from its slot on. -/
theorem FieldsPacked.leaves_field (h : FieldsPacked size offset slot fields)
    (hleaves : fieldLeaves fields = .ok leaves) (hfield : fields[i]? = some field) :
    ∃ row, field.layout.leaves = .ok row ∧ slot ≤ field.slot ∧
      (leaves.drop (field.slot - slot)).take row.length = row.map (shift field.offset) := by
  induction fields generalizing offset slot leaves i with
  | nil => cases hfield
  | cons first rest ih =>
    obtain ⟨rfl, rfl, row, hrow, hrest⟩ := h
    rw [fieldLeaves, hrow] at hleaves
    cases hmore : fieldLeaves rest with
    | error defect => simp [hmore] at hleaves
    | ok more =>
      simp only [hmore, Except.ok.injEq] at hleaves
      subst hleaves
      cases i with
      | zero =>
        obtain rfl := Option.some.inj hfield
        exact ⟨row, hrow, Nat.le_refl _, by simp⟩
      | succ i =>
        obtain ⟨row', hrow', hle, hslice⟩ := ih hrest hmore hfield
        refine ⟨row', hrow', by omega, ?_⟩
        rw [← hslice, List.drop_append, List.drop_eq_nil_of_le (by simpa using by omega),
          List.nil_append, List.length_map, Nat.sub_sub]

theorem leaves_element (hi : i < count) :
    (((List.range count).flatMap (fun i => row.map (shift (Int64.ofNat i * size)))).drop
      (i * row.length)).take row.length = row.map (shift (Int64.ofNat i * size)) := by
  have hi' : ((List.range count).map (fun i => row.map (shift (Int64.ofNat i * size))))[i]? =
      some (row.map (shift (Int64.ofNat i * size))) := by simp [hi]
  have hrow := take_drop_flatten hi'
  have hfirst : (((List.range count).map (fun i => row.map (shift (Int64.ofNat i * size)))).take
      i).flatten.length = i * row.length := by
    simp [List.length_flatten, ← List.map_take, List.take_range, Nat.min_eq_left (Nat.le_of_lt hi),
      Function.comp_def]
  rwa [hfirst, List.length_map] at hrow

/-- Slots with the addresses at which the bytes of their leaves begin, for a value that lies at an
address plus an offset. -/
def homes (leaves : List Leaf) (slots : List Nat) (a : BitVec 32) (offset : Int64) : List (Nat × Int) :=
  slots.zip (leaves.map (fun leaf => effective a (offset + leaf.offset)))

/-- Leaves that stand in a row, for a part that lies elsewhere, have the slots that stand there. -/
theorem homes_slotRange {a' : BitVec 32} {offset' : Int64}
    (hrow : (leaves.drop first).take row.length = row.map (shift base))
    (haddress : ∀ leaf ∈ row,
      effective a' (offset' + leaf.offset) = effective a (offset + (base + leaf.offset))) :
    homes row (Node.slotRange slots first row.length) a' offset' <:+: homes leaves slots a offset := by
  have hpart : homes row (Node.slotRange slots first row.length) a' offset' =
      ((homes leaves slots a offset).drop first).take row.length := by
    simp only [homes, Node.slotRange, List.zip_eq_zipWith, List.drop_zipWith, List.take_zipWith,
      ← List.map_drop, ← List.map_take, hrow, List.map_map]
    exact congrArg _ (List.map_congr_left haddress)
  rw [hpart]
  exact (List.take_prefix _ _).isInfix.trans (List.drop_suffix _ _).isInfix

theorem length_slotRange {more : List Leaf} (hrow : (leaves.drop first).take row.length = more)
    (hmore : more.length = row.length) (hslots : slots.length = leaves.length) :
    (Node.slotRange slots first row.length).length = row.length := by
  rw [← hrow] at hmore
  simp only [Node.slotRange, List.length_take, List.length_drop, hslots] at hmore ⊢
  exact hmore

/-- The field of a value in slots and of the value in memory. -/
theorem selectIndex_field (hfield : l.fields[i]? = some field)
    (hrow : field.layout.leaves = .ok row) :
    (Node.locals ⟨pos, l⟩ slots).selectIndex i =
        .ok (.locals ⟨pos, field.layout⟩ (Node.slotRange slots field.slot row.length)) ∧
      (Node.data ⟨pos, l⟩ addr offset).selectIndex i =
        .ok (.data ⟨pos, field.layout⟩ addr (offset + field.offset)) := by
  have hselect : l.selectIndex i = .ok field := by
    simp [selectIndex, hfield, show ¬ (i : Int) < 0 by omega]
  constructor
  · simp [Node.selectIndex, Node.layout, Node.info, hselect, flatten, hrow, Except.mapError, bind, Except.bind,
      Except.map, pure, Except.pure]
  · simp [Node.selectIndex, Node.layout, Node.info, hselect, Except.mapError, bind, Except.bind, pure, Except.pure]

/-- The element of an array in slots and of the array in memory, at a constant index. -/
theorem index_element {tag : TypeTag} {count : Int64} (hi : v.toInt = i)
    (hcount : i < count.toInt.toNat) (hrow : elem.leaves = .ok row) {info : Info} :
    (Node.locals ⟨pos, .array tag elem (some count) size⟩ slots).index (.const32 info v) =
        .ok (.locals ⟨pos, elem⟩ (Node.slotRange slots (i * row.length) row.length)) ∧
      (Node.data ⟨pos, .array tag elem (some count) size⟩ addr offset).index (.const32 info v) =
        .ok (.data ⟨pos, elem⟩ (.offsetBy info.pos addr (.const32 info v) elem.size) offset) := by
  have hint : v.toInt64.toInt = i := by rw [Int32.toInt_toInt64, hi]
  have hinside : ¬ (v.toInt64 < 0 ∨ v.toInt64 ≥ count) := by
    rw [not_or, Int64.lt_iff_toInt_lt, ge_iff_le, Int64.le_iff_toInt_le, hint]
    have hzero : (0 : Int64).toInt = 0 := rfl
    omega
  constructor
  · simp [Node.index, Node.layout, Node.info, element, Node.constantIndex, Node.constant?, flatten, hrow,
      hinside, hint, Except.mapError, bind, Except.bind, Except.map, pure, Except.pure]
  · rfl

/-- The leaves of an element lie where its address leads. -/
theorem effective_element {leaf : Leaf} (hi : v.toInt = i) (hcount : i < count)
    (helem : elem.size.toInt = elem.bytes) (hoffset : 0 ≤ offset.toInt)
    (hspace : a.toNat + offset.toInt + elem.bytes * count ≤ 2 ^ 32)
    (hleaf : 0 ≤ leaf.offset.toInt ∧ leaf.offset.toInt + leaf.kind.size ≤ elem.bytes) :
    effective (a + v.toBitVec * elem.size.toInt32.toBitVec) (offset + leaf.offset) =
      effective a (offset + (Int64.ofNat i * elem.size + leaf.offset)) := by
  obtain ⟨m, hm⟩ := Int.eq_ofNat_of_zero_le hoffset
  obtain ⟨k, hk⟩ := Int.eq_ofNat_of_zero_le hleaf.1
  have hpositive : 0 < leaf.kind.size := by cases leaf.kind <;> decide
  have hend : i * elem.bytes + elem.bytes ≤ elem.bytes * count := by
    rw [← Nat.succ_mul, Nat.mul_comm]
    exact Nat.mul_le_mul_left _ hcount
  have hproduct : v.toBitVec.toInt * elem.size.toInt = (i * elem.bytes : Nat) := by
    rw [show v.toBitVec.toInt = i from hi, helem, Int.natCast_mul]
  have hallows : Watch.strict.allows a v.toBitVec elem.size := by
    simp only [Watch.allows, hproduct, decide_eq_true_eq]
    omega
  have hv : v.toInt64 = Int64.ofNat i := by
    have hbound := v.toInt_lt
    rw [← Int64.toInt_inj, Int32.toInt_toInt64, hi, Int64.toInt_ofNat_of_lt (by omega)]
  have hplace : effective (a + v.toBitVec * elem.size.toInt32.toBitVec) (offset + leaf.offset) =
      a.toNat + (i * elem.bytes : Nat) + (m + k : Nat) := by
    rw [effective, toNat_offset hallows, hproduct, toInt_add_of_lt hm hk (by omega)]
  have hsame := effective_eq (anchor_offset hallows offset) leaf.offset (by omega) (by omega)
  rw [← hsame, hv, Int64.add_assoc]

end Layout

open Layout

/-- The leaves of a value without unions tile its bytes; those of its fields and elements stand in a
row among them, and a field or an element has the slots of the bytes it takes in memory. -/
theorem TypeTable.layout_tiled {table : TypeTable} {t : Ty} {l : Layout} (h : table.layout t = .ok l)
    (hunion : table.holdsUnion t = false) (hcounted : l.Counted) (hbytes : l.bytes < 2 ^ 63) :
    ∃ leaves, l.leaves = .ok leaves ∧ Tiles l.bytes 0 leaves ∧ l.size.toInt = l.bytes ∧
      (∀ (i : Nat) field, l.fields[i]? = some field → ∃ row, field.layout.leaves = .ok row ∧
        (leaves.drop field.slot).take row.length = row.map (Leaf.shift field.offset) ∧
        ∀ pos slots addr offset, slots.length = leaves.length → ∃ part,
          (Node.locals ⟨pos, l⟩ slots).selectIndex i = .ok (.locals ⟨pos, field.layout⟩ part) ∧
          (Node.data ⟨pos, l⟩ addr offset).selectIndex i =
            .ok (.data ⟨pos, field.layout⟩ addr (offset + field.offset)) ∧
          part.length = row.length ∧
          ∀ a, homes row part a (offset + field.offset) <:+: homes leaves slots a offset) ∧
      ∀ tag elem count size, l = .array tag elem (some count) size → ∀ i : Nat, i < count.toInt.toNat →
        ∃ row, elem.leaves = .ok row ∧
          (leaves.drop (i * row.length)).take row.length = row.map (Leaf.shift (Int64.ofNat i * elem.size)) ∧
          ∀ pos slots addr offset info (v : Int32), slots.length = leaves.length → v.toInt = i →
            ∃ part moved,
              (Node.locals ⟨pos, l⟩ slots).index (.const32 info v) = .ok (.locals ⟨pos, elem⟩ part) ∧
              (Node.data ⟨pos, l⟩ addr offset).index (.const32 info v) =
                .ok (.data ⟨pos, elem⟩ moved offset) ∧
              part.length = row.length ∧
              ∀ world fuel s s' a, addr.eval world .off fuel s = some (.normal [.i32 a], s') →
                0 ≤ offset.toInt → a.toNat + offset.toInt + l.bytes ≤ 2 ^ 32 →
                ∃ a', moved.eval world .off fuel s = some (.normal [.i32 a'], s') ∧
                  homes row part a' offset <:+: homes leaves slots a offset := by
  have hpacked : l.Packed := packed_ofTypeWith (fun _ _ => packed_ofAggregate) t h hunion
  obtain ⟨leaves, hleaves, htiles, hsize⟩ := hpacked.tiled hcounted hbytes
  refine ⟨leaves, hleaves, htiles, hsize, fun i field hfield => ?_, ?_⟩
  · cases hpacked with
    | struct hfields _ =>
      obtain ⟨row, hrow, -, hslice⟩ := hfields.leaves_field hleaves hfield
      refine ⟨row, hrow, hslice, fun pos slots addr offset hslots => ?_⟩
      obtain ⟨hlocals, hdata⟩ := selectIndex_field hfield hrow
      refine ⟨_, hlocals, hdata, length_slotRange hslice (List.length_map _) hslots, fun a => ?_⟩
      exact homes_slotRange hslice (fun leaf _ => by rw [Int64.add_assoc])
    | _ => cases hfield
  · rintro tag elem count size rfl i hi
    cases hpacked with
    | array _ _ helem =>
      have hcount : 0 < count.toInt.toNat := Nat.zero_lt_of_lt hi
      have hinner : elem.bytes < 2 ^ 63 := Nat.lt_of_le_of_lt (Nat.le_mul_of_pos_right _ hcount) hbytes
      obtain ⟨row, hrow, hinside, hesize⟩ := helem.tiled hcounted.2 hinner
      rw [leaves_array row (fun _ => hrow)] at hleaves
      cases hleaves
      refine ⟨row, hrow, leaves_element hi, fun pos slots addr offset info v hslots hv => ?_⟩
      obtain ⟨hlocals, hdata⟩ := index_element hv hi hrow
      refine ⟨_, _, hlocals, hdata, length_slotRange (leaves_element hi) (List.length_map _) hslots, ?_⟩
      intro world fuel s s' a haddr hoffset hspace
      refine ⟨a + v.toBitVec * elem.size.toInt32.toBitVec, ?_, ?_⟩
      · simp [Node.offsetBy, Node.eval, haddr, show Watch.off.allows a v.toBitVec elem.size from rfl]
      · exact homes_slotRange (leaves_element hi) (fun leaf hleaf =>
          effective_element hv hi hesize hoffset hspace (hinside.range hleaf))

theorem TypeTable.layout_tiled_pairs :
    let table : TypeTable := ⟨#[⟨"pair", false, ⟨[("a", .builtin .u8), ("b", .builtin .i64)]⟩⟩], 0⟩
    ∃ l leaves, table.layout (.array 0 (some 2) (.aggregate 0)) = .ok l ∧ l.leaves = .ok leaves ∧
      Tiles 18 0 leaves := by
  intro table
  obtain ⟨leaves, hleaves, htiles, -⟩ := @TypeTable.layout_tiled table (.array 0 (some 2) (.aggregate 0)) _
    rfl rfl ⟨by decide, trivial, trivial, trivial⟩ (by decide)
  exact ⟨_, leaves, rfl, hleaves, htiles⟩

end TreeWasm
