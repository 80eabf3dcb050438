import TreeWasm.Proofs.Meaning.WellFormed
import TreeWasm.Proofs.Meaning.Words

/-! # Operations on integers

What the operators of nodes compute on the words of integers, and that they give canonical words for
canonical ones: every operation narrows its result, and those on booleans cannot leave 0 and 1.
-/

namespace TreeWasm

open Wasm

variable {u w : Width} {floats : FloatUnit} {instr : Numeric} {kind : Scalar} {r v : Value}

namespace Wasm

/-- A computation traps or gives a canonical value of a kind. -/
def Attempt.Settles (kind : Scalar) (x : Attempt Value) : Prop :=
  x = .trap ∨ ∃ v, x = .value v ∧ kind.isCanonical v

theorem Attempt.Settles.isCanonical {x : Attempt Value} (h : x.Settles kind) (hx : x = .value v) :
    kind.isCanonical v := by
  obtain rfl | ⟨w, rfl, hw⟩ := h
  · cases hx
  · cases hx
    exact hw

/-- A word as one of another width. -/
def Sign.extend : Sign → (w u : Width) → BitVec w.bits → BitVec u.bits
  | .signed, .w32, .w64, x => x.signExtend 64
  | .unsigned, .w32, .w64, x => x.setWidth 64
  | _, .w64, .w32, x => x.setWidth 32
  | _, .w32, .w32, x => x
  | _, .w64, .w64, x => x

end Wasm

namespace Scalar

variable {op : Arith} {kinds : List Scalar} {values : List Value} {source target : Scalar} {x : BitVec w.bits}

theorem allCanonical_singleton (h : allCanonical [kind] values) : ∃ v, values = [v] ∧ kind.isCanonical v := by
  cases values with
  | nil => cases h
  | cons v rest =>
    cases rest with
    | nil => exact ⟨v, rfl, by simpa [allCanonical] using h⟩
    | cons w rest => simp [allCanonical] at h

theorem allCanonical_append {more : List Scalar} {rest : List Value}
    (h : allCanonical kinds values) (hmore : allCanonical more rest) :
    allCanonical (kinds ++ more) (values ++ rest) := by
  induction kinds generalizing values with
  | nil =>
    cases values with
    | nil => exact hmore
    | cons v values => cases h
  | cons kind kinds ih =>
    cases values with
    | nil => cases h
    | cons v values =>
      rw [allCanonical, Bool.and_eq_true] at h
      rw [List.cons_append, List.cons_append, allCanonical, h.1, ih h.2]
      rfl

theorem exists_of_isCanonical (hslot : kind.slot = w.int) (h : kind.isCanonical v) : ∃ x, v = .word w x := by
  apply Value.exists_word
  rw [← hslot]
  cases v <;> simp_all [isCanonical, Value.type]

theorem word_of_isCanonical (hslot : kind.slot = .i32) (h : kind.isCanonical v) : ∃ x, v = .i32 x :=
  exists_of_isCanonical (w := .w32) hslot h

theorem isCanonical_long (hslot : kind.slot = .i64) {x : BitVec 64} : kind.isCanonical (.i64 x) :=
  (isCanonical_word (w := .w64)).mpr ⟨hslot, wrap_long hslot⟩

theorem isCanonical_fit (hslot : kind.slot = w.int) (hbool : kind ≠ bool) :
    kind.isCanonical (.word w (kind.fit w x)) := by
  cases w with
  | w32 => exact (isCanonical_iff_fit hslot hbool _).mpr narrowWord_narrowWord
  | w64 => exact isCanonical_long hslot

/-- Truth values are canonical for every kind that lives in a 32-bit slot. -/
theorem isCanonical_ofBool (hslot : kind.slot = .i32) {b : Bool} : kind.isCanonical (.ofBool b) := by
  cases kind with
  | i64 | u64 | f32 | f64 => cases hslot
  | _ => cases b <;> decide

theorem narrow_word (hslot : kind.slot = w.int) (x : BitVec w.bits) :
    kind.narrow (.word w x) = .value (.word w (kind.fit w x)) := by
  cases w with
  | w32 => cases kind <;> rfl
  | w64 =>
    cases kind with
    | i64 | u64 => rfl
    | _ => cases hslot

theorem isCanonical_of_size (hslot : kind.slot = .i32) (hsize : kind.size = 4) {x : BitVec 32} :
    kind.isCanonical (.i32 x) := by
  have hbool : kind ≠ bool := by
    rintro rfl
    cases hsize
  refine (isCanonical_iff_fit (w := .w32) hslot hbool x).mpr ?_
  cases kind with
  | i8 | u8 | i16 | u16 => cases hsize
  | _ => rfl

theorem arith?_int (hslot : kind.slot = w.int) (h : kind.arith? op = some instr) :
    instr = .int w (.ofArith kind.sign op) := by
  cases w with
  | w32 =>
    cases kind with
    | i64 | u64 | f32 | f64 => cases hslot
    | bool | pointer => cases op <;> simp_all [arith?, sign]
    | _ => simp_all [arith?, sign]
  | w64 =>
    cases kind with
    | i64 | u64 => simp_all [arith?, sign]
    | _ => cases hslot

/-- Booleans have only operators that keep 0 and 1 apart from other words. -/
theorem isCanonical_boolArith {x y r : BitVec 32} (h : bool.arith? op = some instr)
    (hx : bool.isCanonical (.i32 x)) (hy : bool.isCanonical (.i32 y))
    (hr : (IntOp.ofArith bool.sign op).eval x y = .ok r) : bool.isCanonical (.i32 r) := by
  rw [isCanonical_bool] at hx hy
  cases op with
  | and | or | xor =>
    simp only [IntOp.ofArith, IntOp.eval, Except.ok.injEq] at hr
    subst hr
    rcases hx with rfl | rfl <;> rcases hy with rfl | rfl <;> decide
  | _ => cases h

theorem exists_slot_of_not_float (hf32 : kind ≠ f32) (hf64 : kind ≠ f64) :
    ∃ w : Width, kind.slot = w.int := by
  cases kind with
  | f32 => exact absurd rfl hf32
  | f64 => exact absurd rfl hf64
  | i64 | u64 => exact ⟨.w64, rfl⟩
  | _ => exact ⟨.w32, rfl⟩

/-! ## Conversions between integers -/

theorem convert_bool : source.convert floats bool v = source.truthOf floats v := by
  simp [convert]

theorem truthOf_word (hslot : kind.slot = w.int) (hbool : kind ≠ bool) :
    kind.truthOf floats (.word w x) = .value (.ofBool (x != 0)) := by
  cases w <;> simp only [truthOf, hslot, hbool, if_false] <;> rfl

theorem convert_word (hsource : source.slot = w.int) (htarget : target.slot = u.int)
    (hbool : target ≠ bool) :
    source.convert floats target (.word w x) =
      .value (.word u (target.fit u (source.sign.extend w u x))) := by
  simp only [convert, hsource, htarget, hbool, if_false]
  cases w with
  | w32 =>
    cases u with
    | w32 => cases source.sign <;> exact narrow_word htarget x
    | w64 => cases source.sign <;> rfl
  | w64 =>
    cases u with
    | w32 => cases source.sign <;> exact narrow_word htarget (x.setWidth 32)
    | w64 => cases source.sign <;> rfl

theorem truthOf_settles (hslot : kind.slot = w.int) (hv : kind.isCanonical v) :
    (kind.truthOf floats v).Settles bool := by
  by_cases hbool : kind = bool
  · subst hbool
    exact .inr ⟨v, rfl, hv⟩
  · obtain ⟨x, rfl⟩ := exists_of_isCanonical hslot hv
    exact .inr ⟨_, truthOf_word hslot hbool, isCanonical_ofBool rfl⟩

theorem convert_settles (hsource : source.slot = w.int) (htarget : target.slot = u.int)
    (hv : source.isCanonical v) : (source.convert floats target v).Settles target := by
  by_cases hbool : target = bool
  · subst hbool
    rw [convert_bool]
    exact truthOf_settles hsource hv
  · obtain ⟨x, rfl⟩ := exists_of_isCanonical hsource hv
    exact .inr ⟨_, convert_word hsource htarget hbool, isCanonical_fit htarget hbool⟩

end Scalar

namespace Layout

variable {a : Arith} {l source : Layout} {op : Operator} {inner : Scalar} {v' : Value} {x y : BitVec w.bits}

section

variable (hkind : l.scalar? = some kind)
include hkind

theorem arith_eq (h : kind.arith? a = some instr) : l.arith (.arith a) = .ok instr := by
  simp [arith, hkind, h]

section

variable (hslot : kind.slot = w.int)
include hslot

/-- Arithmetic on integers: the word operation of the operator, narrowed to the kind. -/
theorem binaryValue_word (h : kind.arith? a = some instr) :
    l.binaryValue floats (.arith a) [.word w x, .word w y] =
      (Attempt.ofExcept ((IntOp.ofArith kind.sign a).eval x y)).map (fun r => .word w (kind.fit w r)) := by
  rw [binaryValue, arith_eq hkind h, Scalar.arith?_int hslot h]
  simp only [Numeric.apply_int]
  cases (IntOp.ofArith kind.sign a).eval x y with
  | error trap => rfl
  | ok r => simp [narrow, hkind, Scalar.narrow_word hslot]

theorem binaryValue_settles (hinstr : kind.arith? a = some instr) (hv : kind.isCanonical v)
    (hv' : kind.isCanonical v') : (l.binaryValue floats (.arith a) [v, v']).Settles kind := by
  obtain ⟨x, rfl⟩ := Scalar.exists_of_isCanonical hslot hv
  obtain ⟨y, rfl⟩ := Scalar.exists_of_isCanonical hslot hv'
  rw [binaryValue_word hkind hslot hinstr]
  cases hr : (IntOp.ofArith kind.sign a).eval x y with
  | error trap => exact .inl rfl
  | ok word =>
    refine .inr ⟨_, rfl, ?_⟩
    by_cases hbool : kind = .bool
    · subst hbool
      cases w with
      | w32 => exact Scalar.isCanonical_boolArith hinstr hv hv' hr
      | w64 => cases hslot
    · exact Scalar.isCanonical_fit hslot hbool

/-! ## Operators on one operand -/

theorem unaryValue_negate :
    l.unaryValue floats source (.arith .sub) [.word w x] = .value (.word w (kind.fit w (-x))) := by
  have hnarrow := Scalar.narrow_word hslot (-x)
  rw [← slot_of_scalar? hkind] at hslot
  cases w with
  | w32 =>
    change BitVec 32 at x
    have hvalue : l.unaryValue floats source (.arith .sub) [.i32 x] = kind.narrow (.i32 (-x)) := by
      simp [unaryValue, hslot, narrow, hkind, Width.int, IntOp.eval]
    exact hvalue.trans hnarrow
  | w64 =>
    change BitVec 64 at x
    have hvalue : l.unaryValue floats source (.arith .sub) [.i64 x] = .value (.i64 (-x)) := by
      simp [unaryValue, hslot, Width.int, IntOp.eval]
    exact hvalue

theorem unaryValue_complement :
    l.unaryValue floats source .complement [.word w x] = .value (.word w (kind.fit w (~~~x))) := by
  have hnarrow := Scalar.narrow_word hslot (~~~x)
  rw [← slot_of_scalar? hkind] at hslot
  cases w with
  | w32 =>
    change BitVec 32 at x
    have hones : x ^^^ 4294967295#32 = ~~~x := BitVec.xor_allOnes
    have hvalue : l.unaryValue floats source .complement [.i32 x] = kind.narrow (.i32 (~~~x)) := by
      simp [unaryValue, hslot, narrow, hkind, Width.int, IntOp.eval, hones]
    exact hvalue.trans hnarrow
  | w64 =>
    change BitVec 64 at x
    have hones : x ^^^ 18446744073709551615#64 = ~~~x := BitVec.xor_allOnes
    have hvalue : l.unaryValue floats source .complement [.i64 x] = .value (.i64 (~~~x)) := by
      simp [unaryValue, hslot, Width.int, IntOp.eval, hones]
    exact hvalue

end

end

theorem unaryValue_not_word (hkind : source.scalar? = some kind) (hslot : kind.slot = .i32)
    {x : BitVec 32} : l.unaryValue floats source .not [.i32 x] = .value (.ofBool (x == 0)) := by
  simp [unaryValue, slot_of_scalar? hkind, hslot]

theorem TakesUnary.slot_eq (h : l.TakesUnary op source) (hkind : l.scalar? = some kind)
    (hinner : source.scalar? = some inner) (hbool : op = .not → inner = .bool) :
    inner.slot = kind.slot := by
  rw [← slot_of_scalar? hkind, ← slot_of_scalar? hinner]
  unfold TakesUnary at h
  split at h
  · exact h.2
  · rw [slot_of_scalar? hinner, hbool rfl]
    exact h.1.symm
  · exact h.2
  · exact h.elim

/-- Negation and complement of integers that are no truth values are canonical. -/
theorem unaryValue_settles (hkind : l.scalar? = some kind) (hinner : source.scalar? = some inner)
    (htakes : l.TakesUnary op source) (hslot : kind.slot = w.int) (hop : op ≠ .not → kind ≠ .bool)
    (hbool : op = .not → inner = .bool) (hv : inner.isCanonical v) :
    (l.unaryValue floats source op [v]).Settles kind := by
  have hslotv := (htakes.slot_eq hkind hinner hbool).trans hslot
  obtain ⟨x, rfl⟩ := Scalar.exists_of_isCanonical hslotv hv
  unfold TakesUnary at htakes
  split at htakes
  · exact .inr ⟨_, unaryValue_negate hkind hslot, Scalar.isCanonical_fit hslot (hop (by simp))⟩
  · obtain rfl := hbool rfl
    cases w with
    | w64 => cases hslotv
    | w32 =>
      exact .inr ⟨_, unaryValue_not_word hinner rfl, Scalar.isCanonical_ofBool hslot⟩
  · exact .inr ⟨_, unaryValue_complement hkind hslot, Scalar.isCanonical_fit hslot (hop (by simp))⟩
  · exact htakes.elim

theorem compareValue_word (hkind : source.scalar? = some kind) (hslot : kind.slot = w.int)
    {rel : Relation} :
    source.compareValue floats (.relation rel) [.word w x, .word w y] =
      .value (.ofBool ((IntRelation.ofRelation kind.sign rel).eval x y)) := by
  have hcompare : kind.compare rel = .intCompare w (.ofRelation kind.sign rel) := by
    cases w <;> cases kind <;> first | rfl | cases hslot
  simp only [compareValue, compare, hkind, hcompare]
  exact Numeric.apply_intCompare

theorem compareValue_settles (hop : (source.compare op).isOk) (hinner : source.scalar? = some inner)
    (hinnerSlot : inner.slot = w.int) (hslot : kind.slot = .i32) (hv : inner.isCanonical v)
    (hv' : inner.isCanonical v') : (source.compareValue floats op [v, v']).Settles kind := by
  obtain ⟨_, rel, _, rfl⟩ := exists_of_compare hop
  obtain ⟨x, rfl⟩ := Scalar.exists_of_isCanonical hinnerSlot hv
  obtain ⟨y, rfl⟩ := Scalar.exists_of_isCanonical hinnerSlot hv'
  exact .inr ⟨_, compareValue_word hinner hinnerSlot, Scalar.isCanonical_ofBool hslot⟩

end Layout

end TreeWasm
