import TreeWasm.Code.Fold
import TreeWasm.Proofs.Meaning.Integers

/-! # Folding constants

The constant that an operation on constants is folded to has the value that the operation computes.
-/

namespace TreeWasm

open Wasm

variable {kind inner : Scalar} {a : Arith} {xinfo : Info} {u w : Width}

theorem Scalar.wrap_wrap {v : Int64} : kind.wrap (kind.wrap v) = kind.wrap v := by
  cases kind with
  | u8 | u16 => simp only [wrap, Int64.and_assoc, Int64.and_self]
  | _ => simp [wrap]

theorem Layout.size_of_slot {l : Layout} (hkind : l.scalar? = some kind) (hslot : kind.slot = w.int) :
    l.size = 8 ↔ w = .w64 := by
  rw [size_of_scalar? hkind]
  cases w <;> cases kind <;> first | decide | cases hslot

namespace Node

variable {c : Constant} {info xinfo : Info} {l : Layout} {n : Node} {inner kind : Scalar}
  {Γ : Surroundings} {x y : BitVec w.bits}

/-- The constant with a given value. -/
def ofValue (info : Info) : Value → Node
  | .i64 x => const64 info (Int64.ofBitVec x)
  | .i32 x => const32 info (Int32.ofBitVec x)
  | _ => absent

theorem isFloat_eq_of_slot (hkind : l.scalar? = some kind) (h : kind.slot = w.int) : l.isFloat = false := by
  rw [Layout.isFloat, hkind]
  cases w <;> cases kind <;> first | rfl | cases h

theorem word_of_constant? (hwf : n.WellFormed Γ) (hslot : n.layout.slot = .i32)
    (h : n.constant? = some c) : ∃ info v, n = const32 info v ∧ c.int = v.toInt64 := by
  cases n with
  | const32 info v =>
    cases h
    exact ⟨info, v, rfl, rfl⟩
  | const64 info v => exact absurd (Eq.symm hwf |>.trans hslot) (by decide)
  | constFloat info v =>
    obtain ⟨kind, hkind, hslot⟩ := Layout.exists_scalar_of_slot hslot (by decide)
    exact absurd ((isFloat_eq_of_slot (w := .w32) hkind hslot).symm.trans hwf) (by decide)
  | _ => cases h

section

variable {info : Info} {kind : Scalar} (hkind : info.layout.scalar? = some kind)

include hkind

/-- A constant brought to its canonical form is made of its low word. -/
theorem constant_wrap (hslot : kind.slot = w.int) (v : Int64) (f : Double) :
    constant info ⟨kind.wrap v, f⟩ = ofValue info (.word w (w.ofInt64 (kind.wrap v))) := by
  have hsize := Layout.size_of_slot hkind hslot
  have hfloat := isFloat_eq_of_slot hkind hslot
  have hback := Scalar.toInt64_ofInt64_wrap hslot v
  cases w with
  | w32 =>
    simp only [Width.toInt64, Width.ofInt64, Int32.ofBitVec_toBitVec] at hback
    simp only [constant, hfloat, hsize, if_false, int32, Layout.wrap, hkind, Option.elim, hback,
      Scalar.wrap_wrap, reduceCtorEq]
    rfl
  | w64 => simp [constant, hfloat, hsize, ofValue, Value.word, Width.ofInt64]

theorem constant_fit (hslot : kind.slot = w.int) (hbool : kind ≠ .bool) (v : Int64) (f : Double) :
    constant info ⟨kind.wrap v, f⟩ = ofValue info (.word w (kind.fit w (w.ofInt64 v))) := by
  rw [constant_wrap hkind hslot, Scalar.ofInt64_wrap hslot hbool]

theorem ofBool_eq (hslot : kind.slot = .i32) (b : Bool) : ofBool info b = ofValue info (.ofBool b) := by
  have hwrap : ∀ b : Bool, kind.wrap (if b then 1 else 0 : Int32).toInt64 = (if b then 1 else 0 : Int32).toInt64 := by
    intro b
    cases kind with
    | i64 | u64 | f32 | f64 => cases hslot
    | _ => cases b <;> rfl
  simp only [ofBool, int32, Layout.wrap, hkind, Option.elim, hwrap]
  cases b <;> rfl

/-- A kind as wide as its slot has a constant for every word. -/
theorem int32_eq (hsize : kind.size = 4) (hslot : kind.slot = .i32) (v : Int32) :
    int32 info v = ofValue info (.i32 v.toBitVec) := by
  have hwrap : kind.wrap v.toInt64 = v.toInt64 :=
    ((Scalar.isCanonical_word (w := .w32)).mp (Scalar.isCanonical_of_size hslot hsize)).2
  simp only [int32, Layout.wrap, hkind, Option.elim, hwrap, Int32.toInt32_toInt64]
  rfl

theorem sign_eq : info.layout.sign = kind.sign := by
  simp only [Layout.sign, Layout.isSigned, hkind, Option.elim, beq_iff_eq]
  cases kind.sign <;> rfl

section

variable (hslot : kind.slot = w.int)
include hslot

theorem foldWords_eq (op : IntOp) :
    foldWords info.layout op (w.toInt64 x) (w.toInt64 y) = (op.eval x y).map w.toInt64 := by
  have hsize := Layout.size_of_slot hkind hslot
  cases w with
  | w32 | w64 => simp [foldWords, hsize, Width.toInt64]; rfl

theorem foldIntegers_word {instr : Numeric} (hinstr : kind.arith? a = some instr)
    (hx : kind.isCanonical (.word w x)) (hy : kind.isCanonical (.word w y)) :
    foldIntegers info (.arith a) (w.toInt64 x) (w.toInt64 y) =
      match (IntOp.ofArith kind.sign a).eval x y with
      | .ok r => .ok (ofValue info (.word w (kind.fit w r)))
      | .error trap => .error (.lowering info.pos (trapFault trap)) := by
  simp only [foldIntegers, foldWords_eq hkind hslot, sign_eq hkind, Layout.wrap, hkind, Option.elim]
  cases hr : (IntOp.ofArith kind.sign a).eval x y with
  | error trap => rfl
  | ok r =>
    simp only [Except.map]
    by_cases hbool : kind = .bool
    · subst hbool
      cases w with
      | w64 => cases hslot
      | w32 =>
        have hcanonical := Scalar.isCanonical_boolArith hinstr hx hy hr
        rw [constant_wrap hkind hslot, ((Scalar.isCanonical_word).mp hcanonical).2, Width.ofInt64_toInt64]
        rfl
    · rw [constant_fit hkind hslot hbool, Width.ofInt64_toInt64]

section

variable (hbool : kind ≠ .bool) (hn : n.constant? = some c) (hc : c.int = w.toInt64 x)
include hbool hn hc

theorem foldUnary_negate :
    foldUnary info (.arith .sub) n = some (ofValue info (.word w (kind.fit w (-x)))) := by
  have hfloat := isFloat_eq_of_slot hkind hslot
  simp [foldUnary, hn, hc, hfloat, Layout.wrap, hkind, constant_fit hkind hslot hbool, Width.ofInt64_neg]

theorem foldUnary_complement :
    foldUnary info .complement n = some (ofValue info (.word w (kind.fit w (~~~x)))) := by
  simp [foldUnary, hn, hc, Layout.wrap, hkind, constant_fit hkind hslot hbool, Width.ofInt64_not]

end

end

theorem foldUnary_not (hslot : kind.slot = .i32) (hn : n.constant? = some c)
    (hc : c.int = w.toInt64 x) : foldUnary info .not n = some (ofValue info (.ofBool (x == 0))) := by
  simp only [foldUnary, hn, hc, Option.bind_some, ofBool_eq hkind hslot, Width.toInt64_eq_zero]
  rfl

end

/-! ## Conversions -/

/-- Canonical words of unsigned kinds narrower than a slot are small. -/
theorem toNat_lt_of_isCanonical {x : BitVec 32} (hkind : kind = .bool ∨ kind = .u8 ∨ kind = .u16)
    (h : kind.isCanonical (.i32 x)) : x.toNat < 2 ^ 16 := by
  rcases hkind with rfl | rfl | rfl
  · rcases Scalar.isCanonical_bool.mp h with rfl | rfl <;> decide
  all_goals
    have hword : Scalar.narrowWord _ x = x := (Scalar.isCanonical_iff_fit (w := .w32) rfl (by decide) x).mp h
    have hnat := congrArg BitVec.toNat hword
    simp only [Scalar.narrowWord, BitVec.toNat_setWidth] at hnat
    omega

theorem toBitVec_and_low (v : Int32) : (v.toInt64 &&& 0xFFFFFFFF).toBitVec = v.toBitVec.setWidth 64 := by
  apply BitVec.eq_of_toNat_eq
  have hmask := toNat_and_mask v.toInt64.toBitVec 32 (by decide)
  refine hmask.trans ?_
  have hlow := congrArg BitVec.toNat (setWidth_signExtend v.toBitVec (by decide : 32 ≤ 64))
  rw [BitVec.toNat_setWidth, BitVec.signExtend_eq] at hlow
  rw [Int32.toBitVec_toInt64, hlow, BitVec.toNat_setWidth]
  omega

/-- The number that a canonical constant stands for is its word, extended by the sign of its kind. -/
theorem toBitVec_integer (hkind : l.scalar? = some kind) (hslot : kind.slot = .i32) {v : Int32}
    (hv : kind.isCanonical (.i32 v.toBitVec)) :
    (l.integer v.toInt64).toBitVec = kind.sign.extend .w32 .w64 v.toBitVec := by
  have hinteger : l.integer v.toInt64 = if kind.size = 4 ∧ kind.sign = .unsigned
      then v.toInt64 &&& 0xFFFFFFFF else v.toInt64 := by
    rw [Layout.integer, Layout.size_of_scalar? hkind]
    simp only [Layout.isSigned, hkind, Option.elim]
    cases kind <;> rfl
  rw [hinteger]
  cases kind with
  | i64 | u64 | f32 | f64 => cases hslot
  | u32 | pointer => exact toBitVec_and_low v
  | bool | u8 | u16 =>
    have hsmall := toNat_lt_of_isCanonical (by simp) hv
    apply BitVec.signExtend_eq_setWidth_of_msb_false
    rw [BitVec.msb_eq_false_iff_two_mul_lt]
    omega
  | i8 | i16 | i32 => rfl

theorem ofInt64_integer (hkind : l.scalar? = some kind) (hslot : kind.slot = w.int)
    (hx : kind.isCanonical (.word w x)) :
    u.ofInt64 (l.integer (w.toInt64 x)) = kind.sign.extend w u x := by
  cases w with
  | w32 =>
    have hinteger := toBitVec_integer hkind hslot (v := .ofBitVec x) hx
    cases u with
    | w64 => exact hinteger
    | w32 =>
      refine (toBitVec_toInt32 _).trans ((congrArg (BitVec.setWidth 32) hinteger).trans ?_)
      cases kind.sign with
      | signed => exact (setWidth_signExtend _ (by decide)).trans (BitVec.signExtend_eq _)
      | unsigned => exact (BitVec.setWidth_setWidth_of_le _ (by decide)).trans (BitVec.setWidth_eq _)
  | w64 =>
    have hinteger (v : Int64) : l.integer v = v := by
      rw [Layout.integer, (Layout.size_of_slot hkind hslot).mpr rfl]
      rfl
    rw [hinteger]
    cases u with
    | w32 => cases kind.sign <;> exact toBitVec_toInt32 _
    | w64 => cases kind.sign <;> rfl

theorem foldConvert_word (floats : FloatUnit) (hkind : info.layout.scalar? = some kind)
    (hinner : n.layout.scalar? = some inner) (hslot : kind.slot = u.int)
    (hslotn : inner.slot = w.int) (hn : n.constant? = some c) (hc : c.int = w.toInt64 x)
    (hx : inner.isCanonical (.word w x)) :
    ∃ r, inner.convert floats kind (.word w x) = .value r ∧ foldConvert info n = some (ofValue info r) := by
  have hfloat := isFloat_eq_of_slot hkind hslot
  have hfloatn := isFloat_eq_of_slot hinner hslotn
  by_cases hbool : kind = .bool
  · subst hbool
    refine ⟨.ofBool (x != 0), ?_, ?_⟩
    · rw [Scalar.convert_bool]
      by_cases hsource : inner = .bool
      · subst hsource
        cases w with
        | w64 => cases hslotn
        | w32 =>
          rcases Scalar.isCanonical_bool.mp hx with hword | hword <;> rw [hword] <;> rfl
      · exact Scalar.truthOf_word hslotn hsource
    · have hne : (w.toInt64 x != 0) = (x != 0) := by
        rw [Bool.eq_iff_iff, bne_iff_ne, bne_iff_ne, ne_eq, ne_eq, Width.toInt64_eq_zero]
      simp [foldConvert, hn, hc, Layout.isBool, hkind, hfloatn, hne, ofBool_eq hkind rfl]
  · refine ⟨_, Scalar.convert_word hslotn hslot hbool, ?_⟩
    simp [foldConvert, hn, hc, Layout.isBool, hkind, hbool, hfloat, hfloatn, Layout.wrap,
      constant_fit hkind hslot hbool, ofInt64_integer hinner hslotn hx]

/-! ## Comparisons -/

theorem eval_ofRelation {w : Nat} (s : Sign) (rel : Relation) (x y : BitVec w) :
    (IntRelation.ofRelation s rel).eval x y = rel.holds (IntRelation.order s x y) := by
  have heq : (IntRelation.order s x y = .eq) ↔ x = y := by
    cases s with
    | signed => rw [IntRelation.order, Int.compare_eq_eq, BitVec.toInt_inj]
    | unsigned => rw [IntRelation.order, Nat.compare_eq_eq, BitVec.toNat_inj]
  cases rel with
  | eq | ne =>
    rw [Bool.eq_iff_iff]
    simp [IntRelation.ofRelation, IntRelation.eval, Relation.holds, heq]
  | _ => rfl

theorem compare_signed (a b : Int64) : Ord.compare a b = Ord.compare a.toInt b.toInt := by
  simp only [Ord.compare, compareOfLessAndEq, Int64.lt_iff_toInt_lt, ← Int64.toInt_inj]

theorem compare_unsigned (a b : UInt64) : Ord.compare a b = Ord.compare a.toNat b.toNat := by
  simp only [Ord.compare, compareOfLessAndEq, UInt64.lt_iff_toNat_lt, ← UInt64.toNat_inj]

theorem compare_unsigned_word (a b : UInt32) : Ord.compare a b = Ord.compare a.toNat b.toNat := by
  simp only [Ord.compare, compareOfLessAndEq, UInt32.lt_iff_toNat_lt, ← UInt32.toNat_inj]

theorem order_word (hkind : l.scalar? = some kind) (hslot : kind.slot = w.int) (f g : Double) :
    order l ⟨w.toInt64 x, f⟩ ⟨w.toInt64 y, g⟩ = some (IntRelation.order kind.sign x y) := by
  have hfloat := isFloat_eq_of_slot hkind hslot
  have hsize := Layout.size_of_slot hkind hslot
  have hword (v : Int32) : v.toInt64.toUInt64.toUInt32.toNat = v.toBitVec.toNat := by
    have hlow := congrArg BitVec.toNat (setWidth_signExtend v.toBitVec (by decide : 32 ≤ 64))
    rw [BitVec.toNat_setWidth, BitVec.signExtend_eq] at hlow
    exact hlow
  cases w <;> cases hsign : kind.sign <;>
    simp only [order, hfloat, Layout.isSigned, hkind, hsign, hsize, compare_signed,
      compare_unsigned, compare_unsigned_word, IntRelation.order, Width.toInt64, Option.elim, hword,
      Int32.toInt_toInt64] <;> rfl

end Node

end TreeWasm
