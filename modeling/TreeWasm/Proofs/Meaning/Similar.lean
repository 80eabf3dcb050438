import TreeWasm.Proofs.Meaning.Alike
import TreeWasm.Proofs.Meaning.Rows

/-! # Layouts that differ in names of types only

Layouts of types that are the same differ only in the occurrences that they belong to. This is more
than to represent values alike: such layouts have the same fields and elements all the way down, where
a pointer and an array without a length are alike whatever they lead to.
-/

namespace TreeWasm.Layout

variable {size : Int64} {tag : TypeTag}

mutual

/-- The layout without the types it belongs to, otherwise as it is. -/
def bare : Layout → Layout
  | void _ => void blank
  | scalar _ kind => scalar blank kind
  | struct _ union size fields => struct blank union size (bareFields fields)
  | array _ elem count size => array blank (bare elem) count size

def bareFields : List (Field Layout) → List (Field Layout)
  | [] => []
  | ⟨name, layout, offset, slot⟩ :: rest => ⟨name, bare layout, offset, slot⟩ :: bareFields rest

end

/-- The layouts differ at most in the types they belong to. -/
def Similar (l m : Layout) : Prop := l.bare = m.bare

variable {l m k : Layout}

theorem Similar.refl (l : Layout) : l.Similar l := rfl

theorem Similar.symm (h : l.Similar m) : m.Similar l := Eq.symm h

theorem Similar.trans (h : l.Similar m) (h' : m.Similar k) : l.Similar k := Eq.trans h h'

/-! ## What similar layouts have in common -/

mutual

theorem form_bare : (l : Layout) → l.bare.form = l.form
  | void _ => rfl
  | scalar _ _ => rfl
  | struct _ _ _ fields => by rw [bare, form, form, fieldForms_bareFields fields]
  | array _ _ none _ => rfl
  | array _ elem (some _) _ => by rw [bare, form, form, form_bare elem]

theorem fieldForms_bareFields : (fields : List (Field Layout)) →
    fieldForms (bareFields fields) = fieldForms fields
  | [] => rfl
  | ⟨_, layout, _, _⟩ :: rest => by
    rw [bareFields, fieldForms, fieldForms, form_bare layout, fieldForms_bareFields rest]

end

theorem scalar?_bare : l.bare.scalar? = l.scalar? := by
  cases l <;> rfl

theorem size_bare : l.bare.size = l.size := by
  cases l <;> rfl

theorem Similar.alike (h : l.Similar m) : l.Alike m := by
  constructor
  · rw [Fits, ← form_bare l, h, form_bare]
  · rw [← scalar?_bare, h, scalar?_bare]

theorem Similar.size_eq (h : l.Similar m) : l.size = m.size := by
  rw [← size_bare, h, size_bare]

theorem similar_of_isVoid (hl : l.isVoid) (hm : m.isVoid) : l.Similar m := by
  cases l with
  | void tag =>
    cases m with
    | void tag => rfl
    | _ => cases hm
  | _ => cases hl

theorem similar_of_scalar?_eq (hl : l.isScalar) (h : l.scalar? = m.scalar?) : l.Similar m := by
  cases l with
  | scalar tag kind =>
    cases m with
    | scalar tag kind =>
      cases h
      rfl
    | _ => cases h
  | _ => cases hl

/-! ## Parts -/

/-- The fields are named alike and have similar layouts. -/
def SimilarFields (fields fields' : List (Field Layout)) : Prop :=
  List.Forall₂ (fun field field' => field.name = field'.name ∧ field.layout.Similar field'.layout)
    fields fields'

theorem similarFields_of_bareFields : {fields fields' : List (Field Layout)} →
    bareFields fields = bareFields fields' → SimilarFields fields fields'
  | [], [], _ => .nil
  | [], _ :: _, h => nomatch h
  | _ :: _, [], h => nomatch h
  | ⟨_, _, _, _⟩ :: _, ⟨_, _, _, _⟩ :: _, h => by
    simp only [bareFields, List.cons.injEq, Field.mk.injEq] at h
    exact .cons ⟨h.1.1, h.1.2.1⟩ (similarFields_of_bareFields h.2)

theorem Similar.fields {union : Bool} {fields : List (Field Layout)}
    (h : l.Similar (.struct tag union size fields)) :
    ∃ tag' fields', l = .struct tag' union size fields' ∧ SimilarFields fields' fields := by
  cases l with
  | struct tag' union' size' fields' =>
    simp only [Similar, bare, struct.injEq] at h
    obtain ⟨-, rfl, rfl, hfields⟩ := h
    exact ⟨tag', fields', rfl, similarFields_of_bareFields hfields⟩
  | _ => simp [Similar, bare] at h

theorem SimilarFields.find? {fields fields' : List (Field Layout)} {name : String}
    {field : Field Layout} (h : SimilarFields fields fields')
    (hfield : fields.find? (fun field => field.name == name) = some field) :
    ∃ field', fields'.find? (fun field => field.name == name) = some field' ∧
      field.layout.Similar field'.layout := by
  induction h with
  | nil => cases hfield
  | @cons first first' _ _ hfirst _ ih =>
    rw [List.find?_cons] at hfield ⊢
    rw [← hfirst.1]
    cases hname : first.name == name with
    | true =>
      rw [hname] at hfield
      cases hfield
      exact ⟨first', rfl, hfirst.2⟩
    | false =>
      rw [hname] at hfield
      exact ih hfield

theorem Similar.element {elem : Layout} {count : Option Int64}
    (h : l.Similar (.array tag elem count size)) :
    ∃ tag' elem', l = .array tag' elem' count size ∧ elem'.Similar elem := by
  cases l with
  | array tag' elem' count' size' =>
    simp only [Similar, bare, array.injEq] at h
    obtain ⟨-, helem, rfl, rfl⟩ := h
    exact ⟨tag', elem', rfl, helem⟩
  | _ => simp [Similar, bare] at h

end TreeWasm.Layout
