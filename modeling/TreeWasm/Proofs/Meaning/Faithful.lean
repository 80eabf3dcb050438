import TreeWasm.Proofs.Simplify.Control

/-! # Layouts that follow their types

A type has one representation: the tag of a layout tells which kind its scalars are of. Layouts of the
same type are therefore alike.
-/

namespace TreeWasm

/-- The kind of the scalars of a type. -/
def TypeKey.kind? : TypeKey → Option Scalar
  | .builtin b => Scalar.ofBuiltin? b
  | .occurrence _ | .openArray => some .pointer
  | .aggregate _ => none

namespace Layout

variable {l m : Layout}

/-- Whether a scalar has the kind of its type. -/
def isFaithful (l : Layout) : Bool := l.follows TypeKey.kind?

theorem scalar?_eq_of_same (hl : l.isFaithful) (hm : m.isFaithful) (hlscalar : l.isScalar)
    (hmscalar : m.isScalar) (h : l.same m) : l.scalar? = m.scalar? := by
  have hkey : l.tag.key = m.tag.key := by simpa [same] using h
  have hkind {k : Layout} (hk : k.isFaithful) (hscalar : k.isScalar) :
      TypeKey.kind? k.tag.key = k.scalar? := by
    simpa [isFaithful, follows, hscalar] using hk
  rw [← hkind hl hlscalar, ← hkind hm hmscalar, hkey]

theorem isFaithful_of_isVoid (h : l.isVoid) : l.isFaithful := by
  cases l with
  | void tag => rfl
  | _ => cases h

theorem alike_of_scalar?_eq (hl : l.isScalar) (h : l.scalar? = m.scalar?) : l.Alike m := by
  obtain ⟨kind, hkind⟩ := Option.isSome_iff_exists.mp hl
  exact alike_of_scalar? hkind (h ▸ hkind)

end Layout

end TreeWasm
