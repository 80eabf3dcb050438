import TreeWasm.Layout.OfType
import TreeWasm.Proofs.Meaning.Faithful
import TreeWasm.Proofs.Meaning.Similar
import TreeWasm.Proofs.Typing.Kinds

/-! # Layouts of types

What the layout of a type says about the type: its kind if it is a scalar, the layouts of its fields or
elements if it has any. Types that are the same have layouts that represent values alike, and a type
without unions has slots for its values.
-/

namespace TreeWasm

open Wasm

variable {occurrence : Nat} {length : Option Int64} {elem : Ty} {tag : TypeTag} {size : Int64}

namespace Layout

variable {offset start : Int64} {slot : Nat} {build' : Ty → Except LayoutDefect Layout}

/-- A field is named and laid out as a binding says. -/
def Builds (build : Ty → Except LayoutDefect Layout) (binding : String × Ty) (field : Field Layout) :
    Prop :=
  field.name = binding.1 ∧ build binding.2 = .ok field.layout

variable {build : Ty → Except LayoutDefect Layout} {bindings : List (String × Ty)} {size : Int64}
  {fields : List (Field Layout)}

theorem placeStruct_eq_ok (h : placeStruct build offset slot bindings = .ok (size, fields)) :
    List.Forall₂ (Builds build) bindings fields ∧ FieldsPlaced slot fields ∧
      ∀ field ∈ fields, field.layout.leaves.isOk := by
  induction bindings generalizing offset slot size fields with
  | nil =>
    cases h
    exact ⟨.nil, trivial, by simp⟩
  | cons binding rest ih =>
    obtain ⟨l, hbuild, h⟩ := Except.exists_of_bind h
    obtain ⟨leaves, hleaves, h⟩ := Except.exists_of_bind h
    obtain ⟨⟨size', fields'⟩, hrest, h⟩ := Except.exists_of_bind h
    cases h
    obtain ⟨hall, hplaced, hok⟩ := ih hrest
    have hlen : l.slots.length = leaves.length := by
      rw [slots, kinds, List.length_map, hleaves, List.length_map]
    refine ⟨.cons ⟨rfl, hbuild⟩ hall, ⟨rfl, hlen ▸ hplaced⟩, ?_⟩
    intro field hfield
    obtain rfl | hfield := List.mem_cons.mp hfield
    · dsimp only
      rw [hleaves]
      rfl
    · exact hok field hfield

theorem placeUnion_eq_ok (h : placeUnion build start bindings = .ok (size, fields)) :
    List.Forall₂ (Builds build) bindings fields := by
  induction bindings generalizing start size fields with
  | nil =>
    cases h
    exact .nil
  | cons binding rest ih =>
    obtain ⟨l, hbuild, h⟩ := Except.exists_of_bind h
    obtain ⟨⟨size', fields'⟩, hrest, h⟩ := Except.exists_of_bind h
    cases h
    exact .cons ⟨rfl, hbuild⟩ (ih hrest)

theorem placeStruct_mono (hbuild : ∀ t l, build t = .ok l → build' t = .ok l)
    (h : placeStruct build offset slot bindings = .ok (size, fields)) :
    placeStruct build' offset slot bindings = .ok (size, fields) := by
  induction bindings generalizing offset slot size fields with
  | nil => exact h
  | cons binding rest ih =>
    obtain ⟨l, hl, h⟩ := Except.exists_of_bind h
    obtain ⟨leaves, hleaves, h⟩ := Except.exists_of_bind h
    obtain ⟨⟨size', fields'⟩, hrest, h⟩ := Except.exists_of_bind h
    simp only [placeStruct, hbuild _ _ hl, bind, Except.bind, hleaves, ih hrest]
    exact h

theorem placeUnion_mono (hbuild : ∀ t l, build t = .ok l → build' t = .ok l)
    (h : placeUnion build start bindings = .ok (size, fields)) :
    placeUnion build' start bindings = .ok (size, fields) := by
  induction bindings generalizing start size fields with
  | nil => exact h
  | cons binding rest ih =>
    obtain ⟨l, hl, h⟩ := Except.exists_of_bind h
    obtain ⟨⟨size', fields'⟩, hrest, h⟩ := Except.exists_of_bind h
    simp only [placeUnion, hbuild _ _ hl, bind, Except.bind, ih hrest]
    exact h

section OfType

variable {aggregate aggregate' : Nat → Except LayoutDefect Layout} {text : Ty → String} {l : Layout}

theorem ofTypeWith_unwrap (aggregate : Nat → Except LayoutDefect Layout) (text : Ty → String) :
    (t : Ty) → ofTypeWith aggregate text t.unwrap = ofTypeWith aggregate text t
  | .location elem => ofTypeWith_unwrap aggregate text elem
  | .absent | .builtin _ | .pointer .. | .array .. | .function .. | .aggregate _ => rfl

theorem ofTypeWith_array (h : ofTypeWith aggregate text (.array occurrence length elem) = .ok l) :
    ∃ el, ofTypeWith aggregate text elem = .ok el ∧
      l = .array ⟨.occurrence occurrence, text (.array occurrence length elem)⟩ el length
        (length.elim (Int64.ofNat openArraySize) (el.size * ·)) := by
  obtain ⟨el, hel, h⟩ := Except.exists_of_bind h
  refine ⟨el, hel, ?_⟩
  cases length <;> exact (Except.ok.inj h).symm

theorem kind_ofTypeWith (haggregate : ∀ id l, aggregate id = .ok l → l.scalar? = none) :
    (t : Ty) → {l : Layout} → ofTypeWith aggregate text t = .ok l → l.scalar? = t.scalar? ∧ l.isFaithful
  | .absent, _, h => nomatch h
  | .location elem, _, h => kind_ofTypeWith haggregate elem h
  | .builtin b, _, h => by
    cases b with
    | error | unknown => cases h
    | _ => exact (Except.ok.inj h) ▸ ⟨rfl, rfl⟩
  | .pointer .., _, h => (Except.ok.inj h) ▸ ⟨rfl, rfl⟩
  | .array .., _, h => by
    obtain ⟨el, -, rfl⟩ := ofTypeWith_array h
    exact ⟨rfl, rfl⟩
  | .function .., _, h => nomatch h
  | .aggregate id, l, h => by
    have hscalar := haggregate id l h
    exact ⟨hscalar, by simp [isFaithful, follows, isScalar, hscalar]⟩

/-- The layout of a type depends on the form of the type alone, but for the types it belongs to. -/
theorem bare_ofTypeWith (aggregate : Nat → Except LayoutDefect Layout) (text : Ty → String) :
    (t : Ty) → (strip : Bool) → (ofTypeWith aggregate text (t.form strip)).toOption.map bare =
      (ofTypeWith aggregate text t).toOption.map bare
  | .location elem, true => bare_ofTypeWith aggregate text elem true
  | .location elem, false => bare_ofTypeWith aggregate text elem true
  | .absent, _ | .builtin _, _ | .pointer .., _ | .function .., _ | .aggregate _, _ => by
    simp [Ty.form, ofTypeWith, Except.toOption, bare]
  | .array _ length elem, _ => by
    have helem := bare_ofTypeWith aggregate text elem false
    simp only [Ty.form, ofTypeWith, bind, Except.bind]
    cases hform : ofTypeWith aggregate text (elem.form false) <;>
      cases hl : ofTypeWith aggregate text elem <;> simp [hform, hl, Except.toOption] at helem ⊢
    have hsize := Similar.size_eq helem
    cases length <;> simp [pure, Except.pure, bare, helem, hsize]

theorem ofTypeWith_mono (haggregate : ∀ id l, aggregate id = .ok l → aggregate' id = .ok l) :
    (t : Ty) → {l : Layout} → ofTypeWith aggregate text t = .ok l → ofTypeWith aggregate' text t = .ok l
  | .absent, _, h => nomatch h
  | .location elem, _, h => ofTypeWith_mono haggregate elem h
  | .builtin _, _, h => h
  | .pointer .., _, h => h
  | .array _ length elem, l, h => by
    obtain ⟨el, hel, rfl⟩ := ofTypeWith_array h
    simp only [ofTypeWith, bind, Except.bind, ofTypeWith_mono haggregate elem hel]
    cases length <;> rfl
  | .function .., _, h => nomatch h
  | .aggregate id, l, h => haggregate id l h

end OfType

variable {table : TypeTable} {depth id : Nat} {l : Layout}

theorem ofAggregate_eq_ok (h : ofAggregate table (depth + 1) id = .ok l) :
    ∃ a size fields, table.get? id = some a ∧
      l = .struct ⟨.aggregate id, table.text (.aggregate id)⟩ a.union size fields ∧
      (if a.union then placeUnion (ofTypeWith (ofAggregate table depth) table.text) 0 a.fields.bindings
        else placeStruct (ofTypeWith (ofAggregate table depth) table.text) 0 0 a.fields.bindings) =
          .ok (size, fields) := by
  unfold ofAggregate at h
  split at h
  · cases h
  next a ha =>
    dsimp only at h
    split at h
    next hunion =>
      obtain ⟨⟨size, fields⟩, hplaced, h⟩ := Except.exists_of_bind h
      exact ⟨a, size, fields, ha, (Except.ok.inj h).symm, by rw [if_pos hunion, hplaced]⟩
    next hunion =>
      obtain ⟨⟨size, fields⟩, hplaced, h⟩ := Except.exists_of_bind h
      exact ⟨a, size, fields, ha, (Except.ok.inj h).symm, by rw [if_neg hunion, hplaced]⟩

theorem scalar?_ofAggregate (h : ofAggregate table depth id = .ok l) : l.scalar? = none := by
  cases depth with
  | zero => cases h
  | succ depth =>
    obtain ⟨a, size, fields, -, rfl, -⟩ := ofAggregate_eq_ok h
    rfl

/-- A layout that is found at some depth is found further down as well. -/
theorem ofAggregate_succ (h : ofAggregate table depth id = .ok l) :
    ofAggregate table (depth + 1) id = .ok l := by
  induction depth generalizing id l with
  | zero => cases h
  | succ depth ih =>
    obtain ⟨a, size, fields, ha, rfl, hplaced⟩ := ofAggregate_eq_ok h
    have hbuild (t : Ty) (l : Layout) :
        ofTypeWith (ofAggregate table depth) table.text t = .ok l →
        ofTypeWith (ofAggregate table (depth + 1)) table.text t = .ok l :=
      ofTypeWith_mono (fun id l => ih) t
    rw [ofAggregate]
    simp only [ha, bind, Except.bind]
    cases hunion : a.union with
    | true =>
      rw [hunion, if_pos rfl] at hplaced
      rw [if_pos rfl, placeUnion_mono hbuild hplaced]
      rfl
    | false =>
      rw [hunion, if_neg (by decide)] at hplaced
      rw [if_neg (by decide), placeStruct_mono hbuild hplaced]
      rfl

end Layout

namespace TypeTable

open Layout

variable {table : TypeTable} {t u : Ty} {l m : Layout}

theorem layout_unwrap : table.layout t.unwrap = table.layout t := ofTypeWith_unwrap _ _ t

theorem scalar?_layout (h : table.layout t = .ok l) : l.scalar? = t.scalar? :=
  (kind_ofTypeWith (fun _ _ => scalar?_ofAggregate) t h).1

theorem isFaithful_layout (h : table.layout t = .ok l) : l.isFaithful :=
  (kind_ofTypeWith (fun _ _ => scalar?_ofAggregate) t h).2

theorem bare_layout (table : TypeTable) (h : t.same u) :
    (table.layout t).toOption.map bare = (table.layout u).toOption.map bare := by
  rw [layout, ← bare_ofTypeWith _ _ t false, Ty.same_iff.mp h, bare_ofTypeWith]
  rfl

theorem similar_layout (hsame : t.same u) (ht : table.layout t = .ok l)
    (hu : table.layout u = .ok m) : l.Similar m := by
  have hbare := bare_layout table hsame
  rw [ht, hu] at hbare
  exact Option.some.inj hbare

theorem layout_array (h : table.layout (.array occurrence length elem) = .ok l) :
    ∃ el tag, table.layout elem = .ok el ∧
      l = .array tag el length (length.elim (Int64.ofNat openArraySize) (el.size * ·)) := by
  obtain ⟨el, hel, hl⟩ := ofTypeWith_array h
  exact ⟨el, _, hel, hl⟩

/-- The layout of an aggregate has the layouts of its fields. Those of a struct have slots. -/
theorem layout_aggregate {id : Nat} (h : table.layout (.aggregate id) = .ok l) :
    ∃ a tag size fields, table.get? id = some a ∧ l = .struct tag a.union size fields ∧
      List.Forall₂ (Builds table.layout) a.fields.bindings fields ∧
      (a.union = false → FieldsPlaced 0 fields ∧ ∀ field ∈ fields, field.layout.leaves.isOk) := by
  have haggregate : ofAggregate table table.aggregates.size id = .ok l := h
  cases hsize : table.aggregates.size with
  | zero =>
    rw [hsize] at haggregate
    cases haggregate
  | succ depth =>
    rw [hsize] at haggregate
    obtain ⟨a, size, fields, ha, rfl, hplaced⟩ := ofAggregate_eq_ok haggregate
    have hbuild {binding : String × Ty} {field : Field Layout}
        (h : Builds (ofTypeWith (ofAggregate table depth) table.text) binding field) :
        Builds table.layout binding field := by
      refine ⟨h.1, ?_⟩
      rw [layout, hsize]
      exact ofTypeWith_mono (fun _ _ => ofAggregate_succ) _ h.2
    refine ⟨a, _, size, fields, ha, rfl, ?_⟩
    split at hplaced
    next hunion =>
      refine ⟨(placeUnion_eq_ok hplaced).imp (fun _ _ => hbuild), fun hstruct => ?_⟩
      rw [hstruct] at hunion
      cases hunion
    · obtain ⟨hall, hfields⟩ := placeStruct_eq_ok hplaced
      exact ⟨hall.imp (fun _ _ => hbuild), fun _ => hfields⟩

/-- The layout is that of some type. -/
def Has (table : TypeTable) (l : Layout) : Prop := ∃ t, table.layout t = .ok l

theorem Has.isFaithful (h : table.Has l) : l.isFaithful := by
  obtain ⟨t, ht⟩ := h
  exact isFaithful_layout ht

theorem has_unit (table : TypeTable) : table.Has .unit := ⟨.builtin .void, rfl⟩

/-- The layout of a struct has the layouts of its fields. -/
theorem Has.fields {union : Bool} {fields : List (Field Layout)}
    (h : table.Has (.struct tag union size fields)) :
    (union = false → FieldsPlaced 0 fields ∧ ∀ field ∈ fields, field.layout.leaves.isOk) ∧
      ∀ field ∈ fields, table.Has field.layout := by
  obtain ⟨t, h⟩ := h
  rw [← layout_unwrap] at h
  cases ht : t.unwrap with
  | aggregate id =>
    rw [ht] at h
    obtain ⟨a, _, _, _, -, hl, hbuilds, hfields⟩ := layout_aggregate h
    cases hl
    refine ⟨hfields, ?_⟩
    exact forall_mem_of_forall₂ hbuilds (fun _ _ => trivial) (fun binding _ hbuild _ => ⟨binding.2, hbuild.2⟩)
  | array =>
    rw [ht] at h
    obtain ⟨_, _, -, hl⟩ := layout_array h
    cases hl
  | builtin b =>
    rw [ht] at h
    cases b <;> cases h
  | location elem => exact absurd ht (Ty.unwrap_ne_location t elem)
  | _ =>
    rw [ht] at h
    cases h

/-- The layout of an array has the layout of its elements. -/
theorem Has.element {elem : Layout} {count : Option Int64} (h : table.Has (.array tag elem count size)) :
    table.Has elem ∧ (count = none → size = Int64.ofNat openArraySize) := by
  obtain ⟨t, h⟩ := h
  rw [← layout_unwrap] at h
  cases ht : t.unwrap with
  | array occurrence length elem =>
    rw [ht] at h
    obtain ⟨el, _, hel, hl⟩ := layout_array h
    cases hl
    refine ⟨⟨elem, hel⟩, ?_⟩
    rintro rfl
    rfl
  | aggregate id =>
    rw [ht] at h
    obtain ⟨a, _, _, _, -, hl, -⟩ := layout_aggregate h
    cases hl
  | builtin b =>
    rw [ht] at h
    cases b <;> cases h
  | location elem => exact absurd ht (Ty.unwrap_ne_location t elem)
  | _ =>
    rw [ht] at h
    cases h

end TypeTable

end TreeWasm
