import TreeWasm.Program.Typing
import TreeWasm.Proofs.Meaning.Alike

/-! # Sameness and kinds of types

The form of a type is what sameness looks at. Two types are the same exactly if their forms are equal,
so that sameness is an equivalence, and whatever depends on the form alone agrees on types that are the
same. The tests on types that typing uses are put in terms of the kind of a scalar.
-/

namespace TreeWasm

open Wasm

mutual

/-- The type without occurrences and without the locations that sameness passes over: those behind a
pointer or another location, and with `strip` those around the type. -/
def Ty.form (strip : Bool) : Ty → Ty
  | .location elem => if strip then elem.form true else .location (elem.form true)
  | .pointer _ elem => .pointer 0 (elem.form true)
  | .array _ length elem => .array 0 length (elem.form false)
  | .function _ params result => .function 0 (Ty.forms params) (result.form false)
  | t => t

def Ty.forms : List Ty → List Ty
  | [] => []
  | t :: rest => t.form false :: Ty.forms rest

end

namespace Ty

variable {a b c : Ty}

theorem form_unwrap : (t : Ty) → t.unwrap.form false = t.form true
  | .location elem => elem.form_unwrap
  | .absent | .builtin _ | .pointer .. | .array .. | .function .. | .aggregate _ => by simp [unwrap, form]

mutual

theorem sameWith_iff : (a b : Ty) → (strip : Bool) → (a.sameWith strip b ↔ a.form strip = b.form false)
  | .location a, b, true => by simpa [sameWith, form] using a.sameWith_iff b true
  | .location a, b, false => by
    cases b with
    | location b => simpa [sameWith, form, form_unwrap] using a.sameWith_iff b.unwrap true
    | _ => simp [sameWith, form]
  | .absent, b, _ | .builtin _, b, _ | .aggregate _, b, _ => by
    cases b <;> simp [sameWith, form, isAbsent]
  | .pointer _ a, b, _ => by
    cases b with
    | pointer _ b => simpa [sameWith, form, form_unwrap] using a.sameWith_iff b.unwrap true
    | _ => simp [sameWith, form]
  | .array _ _ a, b, _ => by
    cases b with
    | array _ _ b => simp [sameWith, form, a.sameWith_iff b false]
    | _ => simp [sameWith, form]
  | .function _ params result, b, _ => by
    cases b with
    | function _ params' result' =>
      simp [sameWith, form, sameAll_iff params params', result.sameWith_iff result' false]
    | _ => simp [sameWith, form]

theorem sameAll_iff : (as bs : List Ty) → (sameAll as bs ↔ forms as = forms bs)
  | [], [] => by simp [sameAll]
  | [], _ :: _ | _ :: _, [] => by simp [sameAll, forms]
  | a :: as, b :: bs => by simp [sameAll, forms, a.sameWith_iff b false, sameAll_iff as bs]

end

theorem same_iff : a.same b ↔ a.form false = b.form false := a.sameWith_iff b false

theorem same_self (t : Ty) : t.same t := same_iff.mpr rfl

theorem equivalence_same : Equivalence (fun a b : Ty => a.same b) where
  refl := same_self
  symm h := same_iff.mpr (same_iff.mp h).symm
  trans h h' := same_iff.mpr ((same_iff.mp h).trans (same_iff.mp h'))

theorem holdsUnionWith_form (aggregate : Nat → Bool) : (t : Ty) → (strip : Bool) →
    (t.form strip).holdsUnionWith aggregate = t.holdsUnionWith aggregate
  | .location elem, true => elem.holdsUnionWith_form aggregate true
  | .location elem, false => elem.holdsUnionWith_form aggregate true
  | .array _ _ elem, _ => elem.holdsUnionWith_form aggregate false
  | .absent, _ | .builtin _, _ | .pointer .., _ | .function .., _ | .aggregate _, _ => by
    simp [form, holdsUnionWith]

end Ty

theorem TypeTable.holdsUnion_eq {table : TypeTable} {a b : Ty} (h : a.same b) :
    table.holdsUnion a = table.holdsUnion b := by
  rw [holdsUnion, ← Ty.holdsUnionWith_form _ a false, Ty.same_iff.mp h, Ty.holdsUnionWith_form]
  rfl

/-! ## Kinds of types -/

namespace Scalar

def isInteger : Scalar → Bool
  | i8 | u8 | i16 | u16 | i32 | u32 | i64 | u64 => true
  | _ => false

theorem arith?_of_isInteger {kind : Scalar} (h : kind.isInteger) (op : Arith) : (kind.arith? op).isSome := by
  cases kind with
  | bool | f32 | f64 | pointer => cases h
  | _ => rfl

end Scalar

namespace Ty

variable {t : Ty}

theorem unwrap_unwrap : (t : Ty) → t.unwrap.unwrap = t.unwrap
  | location elem => unwrap_unwrap elem
  | absent | builtin _ | pointer .. | array .. | function .. | aggregate _ => rfl

theorem unwrap_ne_location : (t elem : Ty) → t.unwrap ≠ location elem
  | location t, elem => unwrap_ne_location t elem
  | absent, _ | builtin _, _ | pointer .., _ | array .., _ | function .., _ | aggregate _, _ => nofun

theorem scalar?_unwrap : t.unwrap.scalar? = t.scalar? := by
  rw [scalar?, unwrap_unwrap, scalar?]

@[simp]
theorem isPointer_unwrap : t.unwrap.isPointer = t.isPointer := by
  rw [isPointer, unwrap_unwrap, isPointer]

@[simp]
theorem isInteger_unwrap : t.unwrap.isInteger = t.isInteger := by
  rw [isInteger, builtin?, unwrap_unwrap, isInteger, builtin?]

@[simp]
theorem isNumeric_unwrap : t.unwrap.isNumeric = t.isNumeric := by
  rw [isNumeric, isInteger_unwrap, isFloat, builtin?, unwrap_unwrap, isNumeric, isFloat, builtin?]

@[simp]
theorem isScalar_unwrap : t.unwrap.isScalar = t.isScalar := by
  rw [isScalar, isNumeric_unwrap, isPointer_unwrap, isBuiltin, builtin?, unwrap_unwrap, isScalar,
    isBuiltin, builtin?]

theorem exists_of_isPointer (h : t.isPointer) : ∃ occurrence elem, t.unwrap = pointer occurrence elem := by
  unfold isPointer at h
  cases ht : t.unwrap with
  | pointer occurrence elem => exact ⟨occurrence, elem, rfl⟩
  | _ => simp [ht] at h

theorem isPointer_iff : t.isPointer ↔ t.scalar? = some .pointer := by
  unfold isPointer scalar?
  cases t.unwrap with
  | builtin b => cases b <;> simp [Scalar.ofBuiltin?]
  | _ => simp

theorem isBuiltin_bool_iff : t.isBuiltin .bool ↔ t.scalar? = some .bool := by
  unfold isBuiltin builtin? scalar?
  cases t.unwrap with
  | builtin b => cases b <;> simp [Scalar.ofBuiltin?]
  | _ => simp

theorem isInteger_iff : t.isInteger ↔ ∃ kind, t.scalar? = some kind ∧ kind.isInteger := by
  unfold isInteger builtin? scalar?
  cases t.unwrap with
  | builtin b => cases b <;> simp [Scalar.ofBuiltin?, Builtin.isInteger, Scalar.isInteger]
  | _ => simp [Scalar.isInteger]

theorem isFloat_iff : t.isFloat ↔ t.scalar? = some .f32 ∨ t.scalar? = some .f64 := by
  unfold isFloat builtin? scalar?
  cases t.unwrap with
  | builtin b => cases b <;> simp [Scalar.ofBuiltin?, Builtin.isFloat]
  | _ => simp

theorem isScalar_iff : t.isScalar ↔ t.scalar?.isSome := by
  unfold isScalar isNumeric isInteger isFloat isBuiltin isPointer builtin? scalar?
  cases t.unwrap with
  | builtin b => cases b <;> simp [Scalar.ofBuiltin?, Builtin.isInteger, Builtin.isFloat]
  | _ => simp

theorem arith?_of_isNumeric {op : Arith} (h : t.isNumeric)
    (hop : op = .add ∨ op = .sub ∨ op = .mul ∨ op = .div) :
    ∃ kind, t.scalar? = some kind ∧ (kind.arith? op).isSome := by
  rw [isNumeric, Bool.or_eq_true] at h
  obtain hinteger | hfloat := h
  · obtain ⟨kind, hkind, hinteger⟩ := isInteger_iff.mp hinteger
    exact ⟨kind, hkind, kind.arith?_of_isInteger hinteger op⟩
  · obtain hkind | hkind := isFloat_iff.mp hfloat
    · exact ⟨.f32, hkind, by obtain rfl | rfl | rfl | rfl := hop <;> rfl⟩
    · exact ⟨.f64, hkind, by obtain rfl | rfl | rfl | rfl := hop <;> rfl⟩

end Ty

namespace Typing

variable {l r t : Ty}

/-- What computes with two values of one type has the instruction for it. -/
theorem arith?_of_resultOf {op : Arith} (hpointer : l.isPointer = false)
    (h : resultOf (.arith op) l r = some t) :
    l.same r ∧ t = l ∧ ∃ kind, l.scalar? = some kind ∧ (kind.arith? op).isSome := by
  have hinteger (hinteger : l.isInteger) : ∃ kind, l.scalar? = some kind ∧ (kind.arith? op).isSome := by
    obtain ⟨kind, hkind, hinteger⟩ := Ty.isInteger_iff.mp hinteger
    exact ⟨kind, hkind, kind.arith?_of_isInteger hinteger op⟩
  unfold resultOf at h
  rw [hpointer] at h
  simp only [Bool.false_and, Bool.false_eq_true, if_false] at h
  split at h
  · cases h
  next hsame =>
    have hsame : l.same r := by simpa only [Bool.not_eq_true', Bool.not_eq_false] using hsame
    refine ⟨hsame, ?_⟩
    cases op with
    | add | sub | mul | div =>
      obtain ⟨hnumeric, ⟨⟩⟩ := Option.ite_none_right_eq_some.mp h
      exact ⟨rfl, Ty.arith?_of_isNumeric hnumeric (by decide)⟩
    | rem | shl | shr =>
      obtain ⟨hnumber, ⟨⟩⟩ := Option.ite_none_right_eq_some.mp h
      exact ⟨rfl, hinteger hnumber⟩
    | and | or | xor =>
      obtain ⟨hbits, ⟨⟩⟩ := Option.ite_none_right_eq_some.mp h
      refine ⟨rfl, ?_⟩
      obtain hnumber | hbool := Bool.or_eq_true _ _ ▸ hbits
      · exact hinteger hnumber
      · exact ⟨.bool, Ty.isBuiltin_bool_iff.mp hbool, rfl⟩

/-- A pointer is moved by an integer, or subtracted from a pointer of its type. -/
theorem resultOf_of_isPointer {op : Arith} (hpointer : l.isPointer)
    (h : resultOf (.arith op) l r = some t) : (r.isInteger ∧ t = l) ∨ (l.same r ∧ t = .i32) := by
  have hkind := Ty.isPointer_iff.mp hpointer
  have hinteger : l.isInteger = false := by
    rw [Bool.eq_false_iff, Ne, Ty.isInteger_iff, hkind]
    rintro ⟨kind, hkind, hinteger⟩
    cases hkind
    cases hinteger
  have hfloat : l.isFloat = false := by
    rw [Bool.eq_false_iff, Ne, Ty.isFloat_iff, hkind]
    decide
  have hbool : l.isBuiltin .bool = false := by
    rw [Bool.eq_false_iff, Ne, Ty.isBuiltin_bool_iff, hkind]
    decide
  unfold resultOf at h
  dsimp only at h
  split at h
  next hmove =>
    cases h
    exact .inl ⟨(Bool.and_eq_true _ _ ▸ hmove).2, rfl⟩
  split at h
  next hdifference =>
    cases h
    exact .inr ⟨(Bool.and_eq_true _ _ ▸ hdifference).2, rfl⟩
  split at h
  · cases h
  · -- No other operation takes pointers.
    cases op <;> simp [Ty.isNumeric, hinteger, hfloat, hbool] at h

end Typing

end TreeWasm
