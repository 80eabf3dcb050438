import TreeWasm.Proofs.Storage.Tiling

/-! # Types that are the same are represented alike

A value of a type that is the same as another may be kept where one of the other is wanted: both types
have layouts or none, and the two layouts agree in all that a value is stored by. Only the occurrences
they belong to tell them apart.
-/

namespace TreeWasm

namespace Layout

variable {l m : Layout} {start stop : Int64} {slot : Nat} {fields : List (Field Layout)}

theorem FieldsPacked.isOk_fieldLeaves (h : FieldsPacked stop start slot fields) :
    (fieldLeaves fields).isOk := by
  induction fields generalizing start slot with
  | nil => rfl
  | cons field rest ih =>
    obtain ⟨-, -, row, hrow, hrest⟩ := h
    obtain ⟨more, hmore⟩ := Except.exists_of_isOk (ih hrest)
    rw [fieldLeaves, hrow, hmore]
    rfl

theorem Packed.isOk_leaves (h : l.Packed) : l.leaves.isOk := by
  induction h with
  | void tag => rfl
  | scalar tag kind => rfl
  | struct hfields => exact hfields.isOk_fieldLeaves
  | openArray tag elem => rfl
  | @array elem tag count _ ih =>
    obtain ⟨row, hrow⟩ := Except.exists_of_isOk ih
    rw [leaves_array row (fun _ => hrow)]
    rfl

/-- What a layout is made of. -/
inductive Category
  | void | scalar | struct | array
  deriving DecidableEq

def category : Layout → Category
  | void _ => .void
  | scalar _ _ => .scalar
  | struct _ _ _ _ => .struct
  | array _ _ _ _ => .array

theorem Similar.category_eq (h : l.Similar m) : l.category = m.category := by
  cases l <;> cases m <;> simp_all [Similar, bare, category]

end Layout

/-- Where a slot of a value is kept in memory: its offset, its value type and its size. -/
def Leaf.extent (leaf : Leaf) : Int64 × Wasm.ValType × Nat := (leaf.offset, leaf.slot, leaf.kind.size)

open Layout in
theorem Layout.Fits.extents_eq {l m : Layout} (h : l.Fits m) (hl : l.leaves.isOk) :
    ∃ leaves leaves', l.leaves = .ok leaves ∧ m.leaves = .ok leaves' ∧
      leaves.map Leaf.extent = leaves'.map Leaf.extent := by
  obtain ⟨leaves, hleaves⟩ := Except.exists_of_isOk hl
  obtain ⟨leaves', hleaves'⟩ := Except.exists_of_isOk (h.isOk_leaves hl)
  refine ⟨leaves, leaves', hleaves, hleaves', ?_⟩
  -- An extent is read off the offset and the kind of a slot.
  have hspots : leaves.map (fun leaf => (leaf.offset, leaf.kind)) =
      leaves'.map (fun leaf => (leaf.offset, leaf.kind)) := by
    simpa [spots, hleaves, hleaves', Except.toOption] using h.spots_eq
  have hextents := congrArg (List.map (fun spot => (spot.1, Scalar.slot spot.2, spot.2.size))) hspots
  rwa [List.map_map, List.map_map] at hextents

namespace TypeTable

open Layout

/-- Sameness is an equivalence, and types that are the same are represented alike: either none of two
such types has a layout, or the two layouts are of one category, with the same size, slot and sign, and
without unions they have the same slots in the same places. -/
theorem represented_alike (table : TypeTable) :
    Equivalence (fun a b : Ty => a.same b) ∧
      ∀ a b, a.same b → (table.layout a).isOk = (table.layout b).isOk ∧
        ∀ l m, table.layout a = .ok l → table.layout b = .ok m →
          l.category = m.category ∧ l.size = m.size ∧ l.slot = m.slot ∧ l.isSigned = m.isSigned ∧
          (table.holdsUnion a = false → table.holdsUnion b = false ∧
            ∃ leaves leaves', l.leaves = .ok leaves ∧ m.leaves = .ok leaves' ∧
              leaves.map Leaf.extent = leaves'.map Leaf.extent) := by
  refine ⟨Ty.equivalence_same, fun a b hsame => ⟨?_, fun l m hl hm => ?_⟩⟩
  · have hok (x : Except LayoutDefect Layout) : x.isOk = (x.toOption.map bare).isSome := by cases x <;> rfl
    rw [hok, hok, bare_layout table hsame]
  · have hsimilar := similar_layout hsame hl hm
    have halike := hsimilar.alike
    refine ⟨hsimilar.category_eq, hsimilar.size_eq, halike.slot_eq, ?_, fun hunion => ?_⟩
    · rw [isSigned, isSigned, halike.2]
    · have hpacked : l.Packed := packed_ofTypeWith (fun _ _ => packed_ofAggregate) a hl hunion
      exact ⟨holdsUnion_eq hsame ▸ hunion, halike.1.extents_eq hpacked.isOk_leaves⟩

/-- Two lists of lists, in which a link holds a pointer to its own type. -/
theorem represented_alike_links :
    let table : TypeTable :=
      ⟨#[⟨"link", false, ⟨[("next", .pointer 0 (.aggregate 0)), ("item", .builtin .i16)]⟩⟩], 3⟩
    let a : Ty := .array 1 (some 2) (.aggregate 0)
    let b : Ty := .array 2 (some 2) (.aggregate 0)
    ∃ l m leaves leaves', table.layout a = .ok l ∧ table.layout b = .ok m ∧ l.size = m.size ∧
      l.leaves = .ok leaves ∧ m.leaves = .ok leaves' ∧
      leaves.map Leaf.extent = leaves'.map Leaf.extent := by
  intro table a b
  have hsame : a.same b := rfl
  obtain ⟨-, hsize, -, -, hleaves⟩ := (table.represented_alike.2 a b hsame).2 _ _ rfl rfl
  obtain ⟨-, leaves, leaves', hl, hm, hextents⟩ := hleaves rfl
  exact ⟨_, _, leaves, leaves', rfl, rfl, hsize, hl, hm, hextents⟩

end TypeTable

end TreeWasm
