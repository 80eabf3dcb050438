import TreeWasm.Proofs.Simplify.Fold
import TreeWasm.Proofs.Simplify.Refine

/-! # Simpler operators

What simplification puts in the place of an operator on simplified operands: a constant, one of the
operands, or an operator without a negation around it.
-/

namespace TreeWasm

open Wasm
open Result (andThen_normal andThen_assoc)

variable {w : Nat} {a : Arith} {c : Constant} {kindOf : TypeKey → Option Scalar} {l : Layout} {x y : BitVec w}

namespace Wasm.IntOp

theorem one_ne_zero (hw : 1 < w) : (1 : BitVec w) ≠ 0 := by
  intro heq
  have hnat : (1#w).toNat = (0#w).toNat := congrArg BitVec.toNat heq
  rw [BitVec.toNat_one (by omega)] at hnat
  simp at hnat

theorem one_ne_allOnes (hw : 1 < w) : (1 : BitVec w) ≠ BitVec.allOnes w := by
  intro heq
  have hnat : (1#w).toNat = (BitVec.allOnes w).toNat := congrArg BitVec.toNat heq
  rw [BitVec.toNat_one (by omega), BitVec.toNat_allOnes] at hnat
  have hpow : 2 ^ 2 ≤ 2 ^ w := Nat.pow_le_pow_right (by decide) hw
  omega

/-- A neutral constant on the right leaves the word on the left. -/
theorem eval_rightNeutral (hw : 1 < w) {sign : Sign} {c : Int64} (h : Node.isRightNeutral (.arith a) c)
    (hzero : c = 0 → y = 0) (hone : c = 1 → y = 1) : (ofArith sign a).eval x y = .ok x := by
  cases a with
  | add | sub =>
    rw [hzero (of_decide_eq_true h)]
    simp [ofArith, eval]
  | mul =>
    rw [hone (of_decide_eq_true h)]
    simp [ofArith, eval]
  | div =>
    rw [hone (of_decide_eq_true h)]
    cases sign with
    | signed =>
      simp only [ofArith, eval, one_ne_zero hw, one_ne_allOnes hw, and_false, if_false]
      exact congrArg Except.ok BitVec.sdiv_one
    | unsigned =>
      simp only [ofArith, eval, one_ne_zero hw, if_false]
      exact congrArg Except.ok BitVec.udiv_one
  | _ => cases h

/-- A neutral constant on the left leaves the word on the right. -/
theorem eval_leftNeutral {sign : Sign} {c : Int64} (h : Node.isLeftNeutral (.arith a) c)
    (hzero : c = 0 → x = 0) (hone : c = 1 → x = 1) : (ofArith sign a).eval x y = .ok y := by
  cases a with
  | add =>
    rw [hzero (of_decide_eq_true h)]
    simp [ofArith, eval]
  | mul =>
    rw [hone (of_decide_eq_true h)]
    simp [ofArith, eval]
  | _ => cases h

end Wasm.IntOp

namespace Node

variable {w : Width} {info : Info} {kind inner : Scalar} {instr : Numeric} {x y : BitVec w.bits}
  {n : Node} {Γ : Surroundings} {op : Operator} {floats : FloatUnit}

/-- A constant node of an integer kind has the word of its constant for a value. -/
theorem exists_of_constant? (hwf : n.WellFormed Γ) (hplain : n.every (isPlain kindOf))
    (hkind : n.layout.scalar? = some kind) (hslot : kind.slot = w.int) (h : n.constant? = some c) :
    ∃ x, c.int = w.toInt64 x ∧ kind.isCanonical (.word w x) ∧
      ∀ world watch fuel s, n.eval world watch fuel s = some (.normal [.word w x], s) := by
  have hlayout := (Layout.slot_of_scalar? hkind).trans hslot
  cases w with
  | w32 =>
    obtain ⟨info, v, rfl, hc⟩ := word_of_constant? hwf hlayout h
    exact ⟨v.toBitVec, hc, isCanonical_of_isPlain (every_self rfl hplain) hkind hslot, fun _ _ _ _ => rfl⟩
  | w64 =>
    cases n with
    | const64 info v =>
      cases h
      exact ⟨v.toBitVec, rfl, Scalar.isCanonical_long hslot, fun _ _ _ _ => rfl⟩
    | const32 info v => exact absurd (Eq.symm hwf |>.trans hlayout) (by decide)
    | constFloat info v =>
      exact absurd ((isFloat_eq_of_slot hkind hslot).symm.trans hwf) (by decide)
    | _ => cases h

/-- Kinds with a neutral constant for an operator are not booleans. -/
theorem ne_bool_of_arith? {c : Int64} (hinstr : kind.arith? a = some instr)
    (h : isRightNeutral (.arith a) c ∨ isLeftNeutral (.arith a) c) : kind ≠ .bool := by
  rintro rfl
  cases a <;> simp_all [Scalar.arith?, isRightNeutral, isLeftNeutral]

section

variable (hkind : info.layout.scalar? = some kind) (hslot : kind.slot = w.int) (hinstr : kind.arith? a = some instr)
include hkind hslot hinstr

theorem binaryValue_rightNeutral (h : isRightNeutral (.arith a) (w.toInt64 y))
    (hx : kind.isCanonical (.word w x)) :
    info.layout.binaryValue floats (.arith a) [.word w x, .word w y] = .value (.word w x) := by
  rw [Layout.binaryValue_word hkind hslot hinstr,
    IntOp.eval_rightNeutral (by cases w <;> decide) h Width.toInt64_eq_zero.mp Width.toInt64_eq_one]
  rw [Scalar.isCanonical_iff_fit hslot (ne_bool_of_arith? hinstr (.inl h))] at hx
  simp [hx]

theorem binaryValue_leftNeutral (h : isLeftNeutral (.arith a) (w.toInt64 y))
    (hx : kind.isCanonical (.word w x)) :
    info.layout.binaryValue floats (.arith a) [.word w y, .word w x] = .value (.word w x) := by
  rw [Layout.binaryValue_word hkind hslot hinstr,
    IntOp.eval_leftNeutral h Width.toInt64_eq_zero.mp Width.toInt64_eq_one]
  rw [Scalar.isCanonical_iff_fit hslot (ne_bool_of_arith? hinstr (.inr h))] at hx
  simp [hx]

end

/-- Folding a unary operation on a constant gives its value. -/
theorem foldUnary_value (floats : FloatUnit) (hkind : info.layout.scalar? = some kind)
    (hinner : n.layout.scalar? = some inner) (hslot : kind.slot = w.int) (hslotn : inner.slot = w.int)
    (htakes : info.layout.TakesUnary op n.layout) (hop : op ≠ .not → kind ≠ .bool)
    (hbool : op = .not → inner = .bool) (hn : n.constant? = some c) (hc : c.int = w.toInt64 x) :
    ∃ r, info.layout.unaryValue floats n.layout op [.word w x] = .value r ∧
      foldUnary info op n = some (ofValue info r) := by
  unfold Layout.TakesUnary at htakes
  split at htakes
  · exact ⟨_, Layout.unaryValue_negate hkind hslot, foldUnary_negate hkind hslot (hop (by simp)) hn hc⟩
  · obtain rfl := hbool rfl
    cases w with
    | w64 => cases hslotn
    | w32 =>
      exact ⟨_, Layout.unaryValue_not_word hinner rfl, foldUnary_not hkind hslot hn hc⟩
  · exact ⟨_, Layout.unaryValue_complement hkind hslot,
      foldUnary_complement hkind hslot (hop (by simp)) hn hc⟩
  · exact htakes.elim

theorem compareValue_negate {v v' : Value} (hop : (l.compare op).isOk)
    (hinner : l.scalar? = some inner) (hslot : inner.slot = w.int) (hv : inner.isCanonical v)
    (hv' : inner.isCanonical v') :
    ∃ b, l.compareValue floats op [v, v'] = .value (.ofBool b) ∧
      l.compareValue floats op.negate [v, v'] = .value (.ofBool !b) := by
  obtain ⟨_, rel, _, rfl⟩ := Layout.exists_of_compare hop
  obtain ⟨x, rfl⟩ := Scalar.exists_of_isCanonical hslot hv
  obtain ⟨y, rfl⟩ := Scalar.exists_of_isCanonical hslot hv'
  refine ⟨_, Layout.compareValue_word hinner hslot, ?_⟩
  rw [Operator.negate, Layout.compareValue_word hinner hslot, eval_ofRelation, eval_ofRelation,
    Relation.holds_negate]

theorem isOk_compare_negate (h : (l.compare op).isOk) : (l.compare op.negate).isOk := by
  obtain ⟨kind, rel, hkind, rfl⟩ := Layout.exists_of_compare h
  simp [Layout.compare, hkind, Operator.negate, Except.isOk, Except.toBool]

end Node

namespace Setting.Refines

open Node

variable {S : Setting} {Γ : Surroundings} {info : Info} {i : Constant} {size : Int64}
  {l l' : Layout} {index m n ptr x y : Node} {op : Operator} {kind : Scalar} {v : Value}

theorem ofValue {w : Value} (hkind : n.layout.scalar? = some kind) (hw : kind.isCanonical w)
    (hplain : n.isPlain S.kindOf)
    (hkeeps : ∀ fuel s, (n.eval S.world S.watch fuel s).Keeps S.traps (some (.normal [w], s))) :
    S.Refines Γ n (.ofValue n.info w) := by
  obtain ⟨width, hslot⟩ := slot_of_isPlain hplain hkind
  obtain ⟨x, rfl⟩ := Scalar.exists_of_isCanonical hslot hw
  have hlayout := (Layout.slot_of_scalar? hkind).trans hslot
  cases width with
  | w32 =>
    have hwrap : kind.wrap (Int32.ofBitVec x).toInt64 = (Int32.ofBitVec x).toInt64 :=
      ((Scalar.isCanonical_word).mp hw).2
    have hproper : (const32 n.info (Int32.ofBitVec x)).isProper := by
      rw [Node.layout] at hkind
      simpa [isProper, Layout.wrap, hkind] using hwrap
    exact ⟨hlayout, plain_leaf hplain rfl rfl rfl hproper, .refl _, hkeeps⟩
  | w64 => exact ⟨hlayout, plain_leaf hplain rfl rfl rfl rfl, .refl _, hkeeps⟩

/-- The parts of a well-formed node have canonical values. -/
theorem exists_canonical {fuel : Nat} {s s' : Store} {values : List Value}
    (hn : S.Admits Γ n) (hkind : n.layout.scalar? = some kind)
    (h : n.eval S.world S.watch fuel s = some (.normal values, s')) :
    ∃ v, values = [v] ∧ kind.isCanonical v := by
  have hholds := eval_holds hn.world hn.wellFormed (fun _ => hn.plain) s values s' h
  obtain ⟨v, hvalues, hv⟩ := hholds.exists_of_scalar? hkind
  exact ⟨v, hvalues, hv rfl⟩

theorem foldBinary (hn : S.Admits Γ (.binary info op x y))
    (h : Node.foldBinary info op x y = .ok (some m)) : S.Refines Γ (.binary info op x y) m := by
  obtain ⟨hworld, ⟨hwfx, hwfy, _, _, hop⟩, hplain⟩ := hn
  obtain ⟨hself, hxplain, hyplain⟩ := every_pair rfl hplain
  obtain ⟨halikex, halikey⟩ := alike_of_isPlain_binary hself hop
  obtain ⟨kind, a, instr, hkind, rfl, hinstr⟩ := Layout.exists_of_arith hop
  obtain ⟨w, hslot⟩ := slot_of_isPlain hself hkind
  have hkindx := halikex.2.trans hkind
  have hkindy := halikey.2.trans hkind
  have hfloat : info.layout.isFloat = false := isFloat_of_isPlain hself
  rw [Node.foldBinary, if_neg (by simp [hfloat])] at h
  cases hcx : x.constant? with
  | some b =>
    obtain ⟨u, hb, hu, hx⟩ := exists_of_constant? hwfx hxplain hkindx hslot hcx
    cases hcy : y.constant? with
    | some c =>
      -- Both operands are constants.
      obtain ⟨v, hc, hv, hy⟩ := exists_of_constant? hwfy hyplain hkindy hslot hcy
      simp only [hcx, hcy, hb, hc, foldIntegers_word hkind hslot hinstr hu hv] at h
      have hvalue : info.layout.binaryValue S.world.floats (.arith a) [.word w u, .word w v] = _ :=
        Layout.binaryValue_word hkind hslot hinstr
      cases hr : (IntOp.ofArith kind.sign a).eval u v with
      | error trap => simp [hr, Except.map] at h
      | ok r =>
        simp only [hr, Except.map] at h
        cases h
        rw [hr] at hvalue
        have hcanonical := (Layout.binaryValue_settles hkind hslot hinstr hu hv).isCanonical hvalue
        refine .ofValue hkind hcanonical hself (fun fuel s => ?_)
        rw [eval, hx, andThen_normal, hy, andThen_normal, List.singleton_append, hvalue]
        exact .refl _
    | none =>
      simp only [hcx, hcy, hb, Except.ok.injEq, Option.ite_none_right_eq_some] at h
      obtain ⟨hneutral, heq⟩ := h
      cases heq
      refine ⟨hwfy, hyplain, halikey, fun fuel s => ?_⟩
      rw [eval, hx, andThen_normal]
      refine .andThen_left (fun ys s₁ hrun => ?_)
      obtain ⟨_, rfl, hv⟩ := exists_canonical ⟨hworld, hwfy, hyplain⟩ hkindy hrun
      obtain ⟨v, rfl⟩ := Scalar.exists_of_isCanonical hslot hv
      rw [List.singleton_append, binaryValue_leftNeutral hkind hslot hinstr hneutral hv]
      exact .refl _
  | none =>
    cases hcy : y.constant? with
    | some c =>
      obtain ⟨v, hc, hv, hy⟩ := exists_of_constant? hwfy hyplain hkindy hslot hcy
      simp only [hcx, hcy, hc, Except.ok.injEq, Option.ite_none_right_eq_some] at h
      obtain ⟨hneutral, heq⟩ := h
      cases heq
      refine ⟨hwfx, hxplain, halikex, fun fuel s => ?_⟩
      refine .andThen_left (fun xs s₁ hrun => ?_)
      obtain ⟨_, rfl, hu⟩ := exists_canonical ⟨hworld, hwfx, hxplain⟩ hkindx hrun
      obtain ⟨u, rfl⟩ := Scalar.exists_of_isCanonical hslot hu
      rw [hy, andThen_normal, List.singleton_append,
        binaryValue_rightNeutral hkind hslot hinstr hneutral hu]
      exact .refl _
    | none => simp [hcx, hcy] at h

theorem foldUnary (hn : S.Admits Γ (.unary info op x))
    (h : Node.foldUnary info op x = some m) : S.Refines Γ (.unary info op x) m := by
  obtain ⟨-, ⟨hwfx, htakes⟩, hplain⟩ := hn
  obtain ⟨kind, hkind⟩ := Option.isSome_iff_exists.mp htakes.isScalar
  obtain ⟨inner, hinner⟩ := Option.isSome_iff_exists.mp htakes.isScalar_source
  obtain ⟨hself, hxplain⟩ := every_single rfl hplain
  obtain ⟨hbool, hop⟩ := unary_of_isPlain hself hkind hinner
  obtain ⟨w, hslot⟩ := slot_of_isPlain hself hkind
  have hslotx := (htakes.slot_eq hkind hinner hbool).trans hslot
  obtain ⟨c, hcx, _⟩ := Option.bind_eq_some_iff.mp h
  obtain ⟨u, hc, hu, hx⟩ := exists_of_constant? hwfx hxplain hinner hslotx hcx
  obtain ⟨r, hr, hfold⟩ := foldUnary_value S.world.floats hkind hinner hslot hslotx htakes hop hbool hcx hc
  rw [h] at hfold
  cases hfold
  have hcanonical := (Layout.unaryValue_settles hkind hinner htakes hslot hop hbool hu).isCanonical hr
  refine .ofValue hkind hcanonical hself (fun fuel s => ?_)
  rw [eval, hx, andThen_normal, hr]
  exact .refl _

theorem unaryValue_not_not {source : Layout} (floats : FloatUnit)
    (hsource : source.scalar? = some .bool) (hl : l.scalar? = some .bool)
    (hv : Scalar.bool.isCanonical v) :
    ∃ w, l.unaryValue floats source .not [v] = .value w ∧
      l'.unaryValue floats l .not [w] = .value v := by
  obtain ⟨x, rfl⟩ := Scalar.word_of_isCanonical rfl hv
  refine ⟨_, Layout.unaryValue_not_word hsource rfl, ?_⟩
  rw [Value.ofBool, Layout.unaryValue_not_word hl rfl]
  rcases Scalar.isCanonical_bool.mp hv with rfl | rfl <;> rfl

theorem bool_of_isPlain_not (h : (Node.unary info .not x).isPlain S.kindOf) :
    info.layout.scalar? = some .bool ∧ x.layout.scalar? = some .bool := by
  have hproper := (isPlain_iff.mp h).2.1
  simp only [isProper, Layout.isBool, Bool.and_eq_true, beq_iff_eq] at hproper
  exact hproper

theorem negate (hn : S.Admits Γ (.unary info .not x)) (hx : x.constant? = none)
    (h : x.negate? = some m) : S.Refines Γ (.unary info .not x) m := by
  obtain ⟨hworld, hwf, hplain⟩ := hn
  obtain ⟨hself, hxplain⟩ := every_single rfl hplain
  obtain ⟨hbool, hboolx⟩ := bool_of_isPlain_not hself
  cases x with
  | compare cinfo op a b =>
    obtain ⟨hwfa, hwfb, hslotb, hop, hslot⟩ := hwf.1
    obtain ⟨hproper, haplain, hbplain⟩ := every_pair rfl hxplain
    have halike := alike_of_isPlain_compare hproper hop
    obtain ⟨inner, hinner⟩ := Option.isSome_iff_exists.mp (Layout.isScalar_of_compare hop)
    have haself := every_self hwfa.isAbsent_eq haplain
    obtain ⟨width, hinnerSlot⟩ := slot_of_isPlain haself hinner
    simp only [negate?, isFloat_of_isPlain haself, Bool.false_eq_true, if_false, Option.some.injEq] at h
    cases h
    refine ⟨⟨hwfa, hwfb, hslotb, isOk_compare_negate hop, hslot⟩, ?_,
      Layout.alike_of_scalar? hboolx hbool, fun fuel s => ?_⟩
    · exact (every_iff rfl).mpr ⟨hproper, by simp [haplain, hbplain]⟩
    · rw [eval, eval, eval, andThen_assoc]
      refine (Result.Keeps.refl _).andThen (fun as s₁ has => ?_)
      rw [andThen_assoc]
      refine (Result.Keeps.refl _).andThen (fun bs s₂ hbs => ?_)
      obtain ⟨v, rfl, hv⟩ := exists_canonical ⟨hworld, hwfa, haplain⟩ hinner has
      obtain ⟨w, rfl, hw⟩ := exists_canonical ⟨hworld, hwfb, hbplain⟩ (halike.2.trans hinner) hbs
      obtain ⟨t, ht, hnegated⟩ := compareValue_negate hop hinner hinnerSlot hv hw
      rw [List.singleton_append, ht, hnegated, Result.ofValue_value, andThen_normal,
        Value.ofBool, Layout.unaryValue_not_word hboolx rfl]
      cases t <;> exact .refl _
  | unary uinfo op inner =>
    cases op with
    | not =>
      cases h
      obtain ⟨huself, hinplain⟩ := every_single rfl hxplain
      obtain ⟨hboolu, hboolin⟩ := bool_of_isPlain_not huself
      refine ⟨hwf.1.1, hinplain, Layout.alike_of_scalar? hboolin hbool, fun fuel s => ?_⟩
      rw [eval, eval, andThen_assoc]
      refine .andThen_left (fun vs s₁ hrun => ?_)
      obtain ⟨v, rfl, hv⟩ := exists_canonical ⟨hworld, hwf.1.1, hinplain⟩ hboolin hrun
      obtain ⟨w, hw, hback⟩ := unaryValue_not_not S.world.floats hboolin hboolu hv
      rw [show (Node.unary uinfo .not m).layout = uinfo.layout from rfl, hw, Result.ofValue_value,
        andThen_normal, hback]
      exact .refl _
    | _ => cases h
  | const32 cinfo v => cases hx
  | _ => cases h

/-! ## Conversions -/

theorem scalar?_eq_of_same (hl : l.isScalar) (hl' : l'.isScalar) (hfollows : l.follows kindOf)
    (hfollows' : l'.follows kindOf) (h : l.same l') : l.scalar? = l'.scalar? := by
  simp only [Layout.follows, hl, hl', Bool.not_true, Bool.false_or, beq_iff_eq] at hfollows hfollows'
  simp only [Layout.same, beq_iff_eq] at h
  rw [← hfollows, ← hfollows', h]

/-- A canonical value of a kind is converted to the kind itself without effect. -/
theorem convert_self {w : Width} {floats : FloatUnit} (hslot : kind.slot = w.int)
    (hv : kind.isCanonical v) : kind.convert floats kind v = .value v := by
  by_cases hbool : kind = .bool
  · subst hbool
    rfl
  obtain ⟨x, rfl⟩ := Scalar.exists_of_isCanonical hslot hv
  rw [Scalar.isCanonical_iff_fit hslot hbool] at hv
  have hsame : kind.sign.extend w w x = x := by cases w <;> cases kind.sign <;> rfl
  rw [Scalar.convert_word hslot hslot hbool, hsame, hv]

theorem convert_same (hn : S.Admits Γ (.convert info x)) (h : x.layout.same info.layout) :
    S.Refines Γ (.convert info x) x := by
  obtain ⟨hworld, ⟨hwfx, hsource, htarget⟩, hplain⟩ := hn
  obtain ⟨hself, hxplain⟩ := every_single rfl hplain
  have hxself := every_self hwfx.isAbsent_eq hxplain
  obtain ⟨kind, hkind⟩ := Option.isSome_iff_exists.mp htarget
  obtain ⟨w, hslot⟩ := slot_of_isPlain hself hkind
  have hkindx : x.layout.scalar? = some kind :=
    (scalar?_eq_of_same hsource htarget (isPlain_iff.mp hxself).1 (isPlain_iff.mp hself).1 h).trans hkind
  refine ⟨hwfx, hxplain, Layout.alike_of_scalar? hkindx hkind, fun fuel s => ?_⟩
  refine .andThen_left (fun vs s₁ hrun => ?_)
  obtain ⟨v, rfl, hv⟩ := exists_canonical ⟨hworld, hwfx, hxplain⟩ hkindx hrun
  rw [Layout.convertValue, hkindx, hkind]
  simp only [convert_self hslot hv]
  exact .refl _

theorem foldConvert (hn : S.Admits Γ (.convert info x))
    (h : Node.foldConvert info x = some m) : S.Refines Γ (.convert info x) m := by
  obtain ⟨-, ⟨hwfx, hsource, htarget⟩, hplain⟩ := hn
  obtain ⟨hself, hxplain⟩ := every_single rfl hplain
  obtain ⟨kind, hkind⟩ := Option.isSome_iff_exists.mp htarget
  obtain ⟨inner, hinner⟩ := Option.isSome_iff_exists.mp hsource
  obtain ⟨w, hslot⟩ := slot_of_isPlain hself hkind
  obtain ⟨u, hslotx⟩ := slot_of_isPlain (every_self hwfx.isAbsent_eq hxplain) hinner
  obtain ⟨c, hcx, _⟩ := Option.bind_eq_some_iff.mp h
  obtain ⟨a, hc, ha, hx⟩ := exists_of_constant? hwfx hxplain hinner hslotx hcx
  obtain ⟨r, hr, hfold⟩ := foldConvert_word S.world.floats hkind hinner hslot hslotx hcx hc ha
  rw [h] at hfold
  cases hfold
  have hcanonical := (Scalar.convert_settles hslotx hslot ha).isCanonical hr
  refine .ofValue hkind hcanonical hself (fun fuel s => ?_)
  rw [eval, hx, andThen_normal, Layout.convertValue, hinner, hkind]
  simp only [hr]
  exact .refl _

/-! ## Comparisons -/

theorem foldCompare (hn : S.Admits Γ (.compare info op x y))
    (h : Node.foldCompare info op x y = .ok (some m)) : S.Refines Γ (.compare info op x y) m := by
  obtain ⟨-, ⟨hwfx, hwfy, _, hop, hslot⟩, hplain⟩ := hn
  obtain ⟨hself, hxplain, hyplain⟩ := every_pair rfl hplain
  obtain ⟨kind, hkind, hslot⟩ := Layout.exists_scalar_of_slot hslot (by decide)
  have halike := alike_of_isPlain_compare hself hop
  obtain ⟨inner, rel, hinner, rfl⟩ := Layout.exists_of_compare hop
  obtain ⟨w, hinnerSlot⟩ := slot_of_isPlain (every_self hwfx.isAbsent_eq hxplain) hinner
  cases hcx : x.constant? with
  | none => simp [Node.foldCompare, hcx] at h
  | some b =>
    cases hcy : y.constant? with
    | none => simp [Node.foldCompare, hcx, hcy] at h
    | some c =>
      obtain ⟨u, hb, _, hx⟩ := exists_of_constant? hwfx hxplain hinner hinnerSlot hcx
      obtain ⟨v, hc, _, hy⟩ := exists_of_constant? hwfy hyplain (halike.2.trans hinner) hinnerSlot hcy
      obtain ⟨bint, bfloat⟩ := b
      obtain ⟨cint, cfloat⟩ := c
      simp only at hb hc
      simp only [Node.foldCompare, hcx, hcy, hb, hc, order_word hinner hinnerSlot, ← eval_ofRelation,
        ofBool_eq hkind hslot] at h
      cases h
      refine .ofValue hkind (Scalar.isCanonical_ofBool hslot) hself (fun fuel s => ?_)
      simp only [eval, hx, hy, andThen_normal, List.singleton_append,
        Layout.compareValue_word hinner hinnerSlot]
      exact .refl _

/-! ## Address arithmetic -/

theorem size_of_isPlain_offset (h : (Node.scaledOffset info ptr index size).isPlain S.kindOf) :
    info.layout.size = 4 :=
  (of_decide_eq_true (isPlain_iff.mp h).2.1).1

section

variable (hn : S.Admits Γ (.scaledOffset info ptr index size))
include hn

/-- The address is represented like the pointer it starts from. -/
theorem offsetBy : S.Refines Γ (.scaledOffset info ptr index size) (.offsetBy info.pos ptr index size) := by
  obtain ⟨-, ⟨hwfp, hwfi, hslotp, hslot, hsloti⟩, hplain⟩ := hn
  obtain ⟨hself, hptrplain, hindexplain⟩ := every_pair rfl hplain
  have halike := alike_of_isPlain_scaledOffset hself hslot
  refine ⟨⟨hwfp, hwfi, hslotp, hslotp, hsloti⟩, ?_, halike, fun _ _ => .refl _⟩
  obtain ⟨hfollows, _, hfloat⟩ := isPlain_iff.mp (every_self hwfp.isAbsent_eq hptrplain)
  refine (every_iff rfl).mpr ⟨isPlain_iff.mpr ⟨hfollows, ?_, hfloat⟩, ?_⟩
  · have hsize := size_of_isPlain_offset hself
    rw [← Layout.size_form, ← halike.1, Layout.size_form] at hsize
    exact decide_eq_true ⟨hsize, rfl⟩
  · simp [Node.offsetBy, hptrplain, hindexplain]

theorem scaledOffset_zero (hi : index.constant? = some i) (hzero : i.int * size = 0) :
    S.Refines Γ (.scaledOffset info ptr index size) ptr := by
  obtain ⟨hworld, ⟨hwfp, hwfi, hslotp, hslot, hsloti⟩, hplain⟩ := hn
  obtain ⟨hself, hptrplain, _⟩ := every_pair rfl hplain
  have halike := alike_of_isPlain_scaledOffset hself hslot
  obtain ⟨kind, hkind, hslot⟩ := Layout.exists_scalar_of_slot hslotp (by decide)
  obtain ⟨iinfo, w, rfl, hint⟩ := word_of_constant? hwfi hsloti hi
  refine ⟨hwfp, hptrplain, halike, fun fuel s => ?_⟩
  refine .andThen_left (fun ps s₁ hrun => ?_)
  obtain ⟨v, rfl, hv⟩ := exists_canonical ⟨hworld, hwfp, hptrplain⟩ hkind hrun
  obtain ⟨x, rfl⟩ := Scalar.word_of_isCanonical hslot hv
  have hword : w.toBitVec * size.toInt32.toBitVec = 0#32 := by
    have hlow := congrArg (fun v => v.toInt32.toBitVec) (hint ▸ hzero)
    simp only [Int64.toInt32_mul, Int32.toInt32_toInt64, Int32.toBitVec_mul] at hlow
    exact hlow
  simp only [eval, andThen_normal, List.singleton_append, hword, BitVec.add_zero]
  split
  · exact .refl _
  · exact .none

theorem scaledOffset_constants {p : Constant} (hp : ptr.constant? = some p)
    (hi : index.constant? = some i) :
    S.Refines Γ (.scaledOffset info ptr index size) (.int32 info (p.int + i.int * size).toInt32) := by
  obtain ⟨-, ⟨hwfp, hwfi, hslotp, hslot, hsloti⟩, hplain⟩ := hn
  have hself := every_self rfl hplain
  obtain ⟨kind, hkind, hkindslot⟩ := Layout.exists_scalar_of_slot hslot (by decide)
  have hsize := Layout.kind_size_of_size hkind (size_of_isPlain_offset hself)
  obtain ⟨pinfo, v, rfl, hpint⟩ := word_of_constant? hwfp hslotp hp
  obtain ⟨iinfo, w, rfl, hiint⟩ := word_of_constant? hwfi hsloti hi
  have hvalue : Node.int32 info (p.int + i.int * size).toInt32 =
      .ofValue info (.i32 (v.toBitVec + w.toBitVec * size.toInt32.toBitVec)) := by
    rw [int32_eq hkind hsize hkindslot, hpint, hiint]
    simp only [Int64.toInt32_add, Int64.toInt32_mul, Int32.toInt32_toInt64, Int32.toBitVec_add,
      Int32.toBitVec_mul]
  rw [hvalue]
  refine .ofValue hkind (Scalar.isCanonical_of_size hkindslot hsize) hself (fun fuel s => ?_)
  simp only [eval, andThen_normal, List.singleton_append]
  split
  · exact .refl _
  · exact .none

end

end Setting.Refines

end TreeWasm
