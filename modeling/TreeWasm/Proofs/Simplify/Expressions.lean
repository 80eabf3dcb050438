import Mathlib.Logic.Relation
import TreeWasm.Proofs.Simplify.Preserved

/-! # Simplification of expressions

Integer expressions stay expressions when they are simplified. With canonical values in its slots an
expression has a canonical value or traps; nothing else can happen. The only expressions that are
refused are those with a division of constants that would trap.
-/

namespace TreeWasm

open Wasm

variable {x n : Node} {kindOf : TypeKey → Option Scalar} {v : Value} {a : Arith} {instr : Numeric}
  {Γ : Surroundings} {s : Store} {info : Info} {S : Setting}

namespace Node

/-! ## Expressions stay expressions -/

section Integral

variable {labels : Labels} {n m : Node}

/-- Whether the node has the form of an expression, and its value is no float. -/
def isIntegral (n : Node) : Bool := n.isExpression && !n.layout.isFloat

theorem isIntegral_negate? (hx : x.every isIntegral) (h : x.negate? = some m) : m.every isIntegral := by
  unfold negate? at h
  split at h
  · split at h
    · cases h
    · cases h
      have hself := every_self rfl hx
      exact (every_iff rfl).mpr ⟨hself, fun c hc => every_child hx hc⟩
  · cases h
    exact every_child hx (List.mem_singleton_self m)
  · split at h
    · cases h
      exact (every_iff rfl).mpr ⟨every_self rfl hx, nofun⟩
    · cases h
  · cases h

theorem Simpler.isIntegral (h : Simpler labels n m) (hfull : n.Full) (hn : n.every isIntegral) :
    m.every isIntegral := by
  cases h with
  | fold hne hfolds =>
    have hfloat : m.info.layout.isFloat = false := by
      have hself := every_self hfull.isAbsent_eq hn
      rw [hfolds.info_eq]
      exact (Bool.not_eq_eq_eq_not.mp (Bool.and_eq_true_iff.mp hself).2)
    have hconstant := hfolds.constant
    have hexpression := hfolds.integer (hfolds.info_eq ▸ hfloat)
    cases m with
    | const32 | const64 => exact (every_iff rfl).mpr ⟨Bool.not_eq_eq_eq_not.mpr hfloat, nofun⟩
    | constFloat => cases hexpression
    | _ => cases hconstant
  | left | right | same | still => exact every_child hn (by simp)
  | negate hnegate => exact isIntegral_negate? (every_child hn (List.mem_singleton_self _)) hnegate
  | yes => exact every_child hn yes_mem_children
  | no _ hno => exact every_child hn (no_mem_children hno)
  | @skip info cond yes no hno =>
    have hself := every_self rfl hn
    simp only [Node.isIntegral, isExpression, Bool.and_eq_true, Bool.not_eq_true'] at hself
    have hother := every_self hself.1.2 (every_child hn (no_mem_children hself.1.2))
    cases no with
    | absent => cases hself.1.2
    | nop => cases hother
    | _ => cases hno
  | @swap info info' inner yes no hno _ =>
    have hself := every_self rfl hn
    simp only [Node.isIntegral, isExpression, Bool.and_eq_true, Bool.not_eq_true'] at hself
    have hinner := every_child (every_child hn cond_mem_children) (List.mem_singleton_self inner)
    have hyes := every_child hn yes_mem_children
    have hother := every_child hn (no_mem_children hno)
    have hpresent := (hfull.child yes_mem_children).isAbsent_eq
    refine (every_iff rfl).mpr ⟨?_, ?_⟩
    · simpa [Node.isIntegral, isExpression, hpresent] using ⟨hself.1.1, hself.2⟩
    · rw [children_ifElse, if_neg (by simp [hpresent])]
      simp [hinner, hyes, hother]
  | _ => cases every_self rfl hn

theorem Reduction.isIntegral (h : Reduction labels n m) (hfull : n.Full) (hn : n.every isIntegral) :
    m.every isIntegral := by
  cases h with
  | simpler h => exact h.isIntegral hfull hn
  | @rebase info ptr index size =>
    have hptr := every_self (hfull.child (.head _)).isAbsent_eq (every_child hn (.head _))
    refine (every_iff rfl).mpr ⟨?_, fun c hc => every_child hn hc⟩
    exact (Bool.and_eq_true_iff.mp hptr).2
  | _ => cases every_self rfl hn

theorem Becomes.isIntegral (h : n.Becomes labels m) (hn : n.every isIntegral) : m.every isIntegral := by
  induction n using childInduction generalizing m with
  | absent =>
    obtain ⟨_, h⟩ := h
    cases h
  | step n hpresent ih =>
    obtain ⟨parts, hfill, hparts, hreduces⟩ := h.cases
    have hrebuilt := rebuilt hfill
    have hfull := rebuild_full hpresent hfill (full_of_becomes hparts)
    have hmid : (n.rebuild parts).every Node.isIntegral := by
      refine (every_iff (hrebuilt.absent.trans hpresent)).mpr ⟨?_, fun p hp => ?_⟩
      · rw [Node.isIntegral, hrebuilt.expression, layout, hrebuilt.info]
        exact every_self hpresent hn
      · rw [hrebuilt.children] at hp
        obtain ⟨c, hc, hbecomes⟩ := exists_mem_of_forall₂ hparts hp
        exact ih c hc hbecomes (every_child hn hc)
    clear h
    induction hreduces with
    | refl => exact hmid
    | step hfirst hlast ih =>
      exact hlast.isIntegral (hfirst.full hfull) ih

theorem isExpression_of_becomes (hplain : n.every (isPlain kindOf)) (hexpr : n.every isExpression)
    (h : n.Becomes labels m) : m.every isExpression := by
  have hn : n.every Node.isIntegral :=
    every_both (fun c hp he => by simp [Node.isIntegral, he, isFloat_of_isPlain hp]) hplain hexpr
  have hm := h.isIntegral hn
  exact every_both (fun c hc _ => (Bool.and_eq_true_iff.mp hc).1) hm hm

end Integral

end Node

/-! ## Expressions have a value or trap -/

namespace Wasm.Result

/-- The result is a trap or a canonical value of a kind, and the store is as it was. -/
def Settles (kind : Scalar) (s : Store) (r : Result) : Prop :=
  r = some (.trap, s) ∨ ∃ v, kind.isCanonical v ∧ r = some (.normal [v], s)

namespace Settles

variable {kind kind' : Scalar} {s : Store} {r : Result}

theorem andThen {f : List Value → Store → Result} (h : Settles kind s r)
    (hnext : ∀ v, kind.isCanonical v → Settles kind' s (f [v] s)) :
    Settles kind' s (r.andThen f) := by
  rcases h with rfl | ⟨v, hv, rfl⟩
  · exact .inl rfl
  · exact hnext v hv

theorem value (hv : kind.isCanonical v) : Settles kind s (some (.normal [v], s)) := .inr ⟨v, hv, rfl⟩

theorem ofValue {x : Attempt Value} (h : x.Settles kind) : Settles kind s (Result.ofValue x s) := by
  obtain rfl | ⟨v, rfl, hv⟩ := h
  · exact .inl rfl
  · exact value hv

end Settles

end Wasm.Result

namespace Node

open Wasm.Result (Settles)

/-- Whether a node that reads slots finds values canonical for its layout in them. -/
def readsCanonical (s : Store) : Node → Bool
  | locals info slots => Scalar.allCanonical info.layout.kinds (slots.map s.locals)
  | _ => true

theorem WellFormed.part {c : Node} (hwf : n.WellFormed Γ) (hexpr : n.every isExpression)
    (hc : c ∈ n.children) : c.WellFormed Γ := by
  have hself := every_self hwf.isAbsent_eq hexpr
  cases n with
  | binary | compare | scaledOffset =>
    simp only [children, List.mem_cons, List.not_mem_nil, or_false] at hc
    rcases hc with rfl | rfl
    · exact hwf.1
    · exact hwf.2.1
  | unary | convert =>
    obtain rfl := List.mem_singleton.mp hc
    exact hwf.1
  | ifElse info cond yes no =>
    simp only [isExpression, Bool.and_eq_true, Bool.not_eq_true'] at hself
    rw [children_ifElse, if_neg (by simp [hself.2])] at hc
    simp only [List.mem_cons, List.not_mem_nil, or_false] at hc
    rcases hc with rfl | rfl | rfl
    · exact hwf.1
    · exact hwf.2.2.1
    · rcases hwf.2.2.2.2 with ⟨habsent, _⟩ | ⟨hwfno, _⟩
      · cases habsent.symm.trans hself.2
      · exact hwfno
  | const32 | const64 | locals => cases hc
  | _ => cases hself

/-- The node is an expression that finds canonical values in its slots. -/
structure Evaluable (kindOf : TypeKey → Option Scalar) (Γ : Surroundings) (s : Store) (n : Node) :
    Prop where
  wellFormed : n.WellFormed Γ
  plain : n.every (isPlain kindOf)
  expression : n.every isExpression
  reads : n.every (readsCanonical s)

theorem Evaluable.child {c : Node} (h : n.Evaluable kindOf Γ s) (hc : c ∈ n.children) :
    c.Evaluable kindOf Γ s :=
  ⟨h.wellFormed.part h.expression hc, every_child h.plain hc, every_child h.expression hc,
    every_child h.reads hc⟩

/-- With canonical values in its slots an expression has a canonical value or traps. -/
theorem eval_settles {world : World} {fuel : Nat} (h : n.Evaluable kindOf Γ s) :
    ∃ kind, n.layout.scalar? = some kind ∧
      Settles kind s (n.eval world ⟨true, false⟩ fuel s) := by
  induction n using partsInduction with
  | absent => exact h.wellFormed.elim
  | const32 info v =>
    obtain ⟨kind, hkind, hslot⟩ := Layout.exists_scalar_of_slot h.wellFormed (by decide)
    exact ⟨kind, hkind, .value (isCanonical_of_isPlain (every_self rfl h.plain) hkind hslot)⟩
  | const64 info v =>
    obtain ⟨kind, hkind, hslot⟩ := Layout.exists_scalar_of_slot h.wellFormed (by decide)
    exact ⟨kind, hkind, .value (Scalar.isCanonical_long hslot)⟩
  | locals info slots =>
    obtain ⟨kind, hkind⟩ := Option.isSome_iff_exists.mp (every_self rfl h.expression)
    have hcanonical := every_self rfl h.reads
    simp only [readsCanonical, Layout.kinds_of_scalar? hkind] at hcanonical
    obtain ⟨v, hv, hvalue⟩ := Scalar.allCanonical_singleton hcanonical
    refine ⟨kind, hkind, ?_⟩
    rw [eval, hv, Watch.reads, Result.andThen_normal, Layout.kinds_of_scalar? hkind,
      if_pos (fun _ => hv ▸ hcanonical)]
    exact .value hvalue
  | binary info op x y hx hy =>
    obtain ⟨kindx, hkindx, hx⟩ := hx (h.child (by simp))
    obtain ⟨kindy, hkindy, hy⟩ := hy (h.child (by simp))
    obtain ⟨_, _, _, _, hop⟩ := h.wellFormed
    have hself := every_self rfl h.plain
    obtain ⟨halikex, halikey⟩ := alike_of_isPlain_binary hself hop
    obtain ⟨kind, a, instr, hkind, rfl, hinstr⟩ := Layout.exists_of_arith hop
    obtain ⟨_, hslot⟩ := slot_of_isPlain hself hkind
    obtain rfl := Option.some.inj (hkindx.symm.trans (halikex.2.trans hkind))
    obtain rfl := Option.some.inj (hkindy.symm.trans (halikey.2.trans hkind))
    exact ⟨_, hkind, hx.andThen (fun v hv => hy.andThen (fun w hw =>
      .ofValue (Layout.binaryValue_settles hkind hslot hinstr hv hw)))⟩
  | unary info op x hx =>
    obtain ⟨inner, hinner, hx⟩ := hx (h.child (by simp))
    obtain ⟨_, htakes⟩ := h.wellFormed
    obtain ⟨kind, hkind⟩ := Option.isSome_iff_exists.mp htakes.isScalar
    have hself := every_self rfl h.plain
    obtain ⟨_, hslot⟩ := slot_of_isPlain hself hkind
    obtain ⟨hnot, hother⟩ := unary_of_isPlain hself hkind hinner
    exact ⟨kind, hkind, hx.andThen (fun v hv =>
      .ofValue (Layout.unaryValue_settles hkind hinner htakes hslot hother hnot hv))⟩
  | convert info x hx =>
    have hchild := h.child (c := x) (by simp)
    obtain ⟨inner, hinner, hx⟩ := hx hchild
    obtain ⟨hwfx, _, htarget⟩ := h.wellFormed
    obtain ⟨kind, hkind⟩ := Option.isSome_iff_exists.mp htarget
    obtain ⟨_, hslot⟩ := slot_of_isPlain (every_self rfl h.plain) hkind
    obtain ⟨_, hslotx⟩ := slot_of_isPlain (every_self hwfx.isAbsent_eq hchild.plain) hinner
    refine ⟨kind, hkind, hx.andThen (fun v hv => ?_)⟩
    rw [Layout.convertValue, hinner, hkind]
    exact .ofValue (Scalar.convert_settles hslotx hslot hv)
  | compare info op x y hx hy =>
    have hchild := h.child (c := x) (by simp)
    obtain ⟨inner, hinner, hx⟩ := hx hchild
    obtain ⟨kindy, hkindy, hy⟩ := hy (h.child (by simp))
    obtain ⟨hwfx, _, _, hop, hslot⟩ := h.wellFormed
    obtain ⟨kind, hkind, hslot⟩ := Layout.exists_scalar_of_slot hslot (by decide)
    have halike := alike_of_isPlain_compare (every_self rfl h.plain) hop
    obtain rfl := Option.some.inj (hkindy.symm.trans (halike.2.trans hinner))
    obtain ⟨_, hslotx⟩ := slot_of_isPlain (every_self hwfx.isAbsent_eq hchild.plain) hinner
    exact ⟨kind, hkind, hx.andThen (fun v hv => hy.andThen (fun w hw =>
      .ofValue (Layout.compareValue_settles hop hinner hslotx hslot hv hw)))⟩
  | scaledOffset info ptr index size hptr hindex =>
    obtain ⟨kindp, hkindp, hptr⟩ := hptr (h.child (by simp))
    obtain ⟨kindi, hkindi, hindex⟩ := hindex (h.child (by simp))
    obtain ⟨_, _, hslotp, hslot, hsloti⟩ := h.wellFormed
    obtain ⟨kind, hkind, hkindslot⟩ := Layout.exists_scalar_of_slot hslot (by decide)
    have hsize := size_of_isPlain_scaledOffset (every_self rfl h.plain) hkind
    refine ⟨kind, hkind, hptr.andThen (fun v hv => hindex.andThen (fun w hw => ?_))⟩
    obtain ⟨p, rfl⟩ := Scalar.word_of_isCanonical ((Layout.slot_of_scalar? hkindp).symm.trans hslotp) hv
    obtain ⟨i, rfl⟩ := Scalar.word_of_isCanonical ((Layout.slot_of_scalar? hkindi).symm.trans hsloti) hw
    exact .value (Scalar.isCanonical_of_size hkindslot hsize)
  | ifElse info cond yes no hcond hyes hno =>
    have hself := every_self rfl h.expression
    simp only [isExpression, Bool.and_eq_true, Bool.not_eq_true'] at hself
    obtain ⟨kindc, hkindc, hcond⟩ := hcond (h.child cond_mem_children)
    obtain ⟨kind, hkindy, hyes⟩ := hyes (h.child yes_mem_children)
    obtain ⟨kindn, hkindn, hno⟩ := hno (h.child (no_mem_children hself.2))
    obtain ⟨_, hslotc, _, halikey, ⟨habsent, _⟩ | ⟨_, halikeno⟩⟩ := h.wellFormed
    · cases habsent.symm.trans hself.2
    have hkind : info.layout.scalar? = some kind := halikey.2.symm.trans hkindy
    obtain rfl := Option.some.inj (hkindn.symm.trans (halikeno.2.trans hkind))
    refine ⟨_, hkind, hcond.andThen (fun v hv => ?_)⟩
    obtain ⟨c, rfl⟩ := Scalar.word_of_isCanonical ((Layout.slot_of_scalar? hkindc).symm.trans hslotc) hv
    simp only [hself.2, Bool.false_eq_true, if_false]
    split
    · exact hyes
    · exact hno
  | _ => cases every_self rfl h.expression

end Node

/-! ## Divisions that are refused -/

/-- Only divisions trap, by zero or because the quotient has no word. -/
theorem Wasm.IntOp.eval_eq_error {w : Nat} {sign : Sign} {x y : BitVec w} {trap : Trap}
    (h : (ofArith sign a).eval x y = .error trap) :
    (a = .div ∨ a = .rem) ∧ Node.trapFault trap = if y = 0 then .divisionByZero else .divisionOverflow := by
  cases a with
  | div =>
    refine ⟨.inl rfl, ?_⟩
    cases sign with
    | signed =>
      simp only [ofArith, eval] at h
      split at h
      next hzero =>
        cases h
        rw [if_pos hzero]
        rfl
      next hzero =>
        split at h
        · cases h
          rw [if_neg hzero]
          rfl
        · cases h
    | unsigned =>
      simp only [ofArith, eval] at h
      split at h
      next hzero =>
        cases h
        rw [if_pos hzero]
        rfl
      · cases h
  | rem =>
    refine ⟨.inr rfl, ?_⟩
    cases sign with
    | signed | unsigned =>
      simp only [ofArith, eval] at h
      split at h
      next hzero =>
        cases h
        rw [if_pos hzero]
        rfl
      · cases h
  | shr => cases sign <;> cases h
  | _ => cases h

namespace Node

variable {failure : Failure} {labels : Labels} {c n : Node}

/-- A node is another one or a part of it, at any depth. -/
abbrev Within (c n : Node) : Prop := Relation.ReflTransGen (fun n c => c ∈ n.children) n c

theorem Within.of_child {b : Node} (h : b.Within c) (hc : c ∈ n.children) : b.Within n := .head hc h

/-- A failure that is reported of a division in a node: its operands are simplified to constants, and
dividing them traps. -/
inductive RefusesDivision (labels : Labels) (n : Node) : Failure → Prop
  | intro {info : Info} {a : Arith} {x y x' y' : Node} {cx cy : Bool} {b c : Constant}
      (within : (binary info (.arith a) x y).Within n) (division : a = .div ∨ a = .rem)
      (left : x.simplify labels = .ok (x', cx)) (right : y.simplify labels = .ok (y', cy))
      (dividend : x'.constant? = some b) (divisor : y'.constant? = some c)
      (traps : ∀ world watch fuel s,
        (binary info (.arith a) x' y').eval world watch fuel s = some (.trap, s)) :
      RefusesDivision labels n (.lowering info.pos (if c.int = 0 then .divisionByZero else .divisionOverflow))

theorem RefusesDivision.of_child (h : c.RefusesDivision labels failure) (hc : c ∈ n.children) :
    n.RefusesDivision labels failure := by
  obtain ⟨within, division, left, right, dividend, divisor, traps⟩ := h
  exact ⟨within.of_child hc, division, left, right, dividend, divisor, traps⟩

/-- An operation on constants is refused exactly for a trap, and named after its divisor. -/
theorem foldIntegers_error {kind : Scalar} {w : Width} {b c : BitVec w.bits}
    (hkind : info.layout.scalar? = some kind) (hslot : kind.slot = w.int)
    (hinstr : kind.arith? a = some instr) (hb : kind.isCanonical (.word w b))
    (hc : kind.isCanonical (.word w c))
    (h : foldIntegers info (.arith a) (w.toInt64 b) (w.toInt64 c) = .error failure) :
    (a = .div ∨ a = .rem) ∧
      failure = .lowering info.pos (if w.toInt64 c = 0 then .divisionByZero else .divisionOverflow) ∧
      ∀ floats, info.layout.binaryValue floats (.arith a) [.word w b, .word w c] = .trap := by
  rw [foldIntegers_word hkind hslot hinstr hb hc] at h
  cases hr : (IntOp.ofArith kind.sign a).eval b c with
  | ok r => simp [hr] at h
  | error trap =>
    simp only [hr, Except.error.injEq] at h
    obtain ⟨hdivision, hfault⟩ := IntOp.eval_eq_error hr
    refine ⟨hdivision, ?_, fun floats => ?_⟩
    · rw [← h, hfault]
      simp only [Width.toInt64_eq_zero]
    · rw [Layout.binaryValue_word hkind hslot hinstr, hr]
      rfl

/-- An operation on simplified operands is refused only for a division of constants that traps. -/
theorem refusesDivision_of_foldBinary {op : Operator} {y x' y' : Node} {cx cy : Bool}
    (hwf : (binary info op x y).WellFormed Γ) (hs : (binary info op x y).Simplifiable S labels)
    (hworld : S.world.signature = Γ.functions) (hrx : x.simplify labels = .ok (x', cx))
    (hry : y.simplify labels = .ok (y', cy)) (h : foldBinary info op x' y' = .error failure) :
    (binary info op x y).RefusesDivision labels failure := by
  have hrefx := (S.simplifies labels (hs.child (by simp)) ⟨cx, hrx⟩).value hworld hwf.1
  have hrefy := (S.simplifies labels (hs.child (by simp)) ⟨cy, hry⟩).value hworld hwf.2.1
  have hself := every_self rfl hs.plain
  have hfloat : info.layout.isFloat = false := isFloat_of_isPlain hself
  obtain ⟨halikex, halikey⟩ := alike_of_isPlain_binary hself hwf.2.2.2.2
  obtain ⟨kind, a, instr, hkind, rfl, hinstr⟩ := Layout.exists_of_arith hwf.2.2.2.2
  obtain ⟨w, hslot⟩ := slot_of_isPlain hself hkind
  rw [foldBinary, if_neg (by simp [hfloat])] at h
  split at h
  next b c hb hc =>
    obtain ⟨u, hbint, hu, hxu⟩ := exists_of_constant? hrefx.wellFormed hrefx.plain
      (hrefx.layout.2.trans (halikex.2.trans hkind)) hslot hb
    obtain ⟨v, hcint, hv, hyv⟩ := exists_of_constant? hrefy.wellFormed hrefy.plain
      (hrefy.layout.2.trans (halikey.2.trans hkind)) hslot hc
    cases hr : foldIntegers info (.arith a) b.int c.int with
    | ok r => simp [hr, Except.map] at h
    | error failure' =>
      simp only [hr, Except.map, Except.error.injEq] at h
      subst h
      rw [hbint, hcint] at hr
      obtain ⟨hdivision, rfl, htrap⟩ := foldIntegers_error hkind hslot hinstr hu hv hr
      rw [← hcint]
      refine ⟨.refl, hdivision, hrx, hry, hb, hc, fun world watch fuel s => ?_⟩
      rw [eval, hxu, Result.andThen_normal, hyv, Result.andThen_normal, List.singleton_append, htrap]
      rfl
  all_goals cases h

/-- Simplification refuses an expression only for a division of constants that traps. -/
theorem refusesDivision_of_simplify (htraps : S.traps) (hworld : S.world.signature = Γ.functions)
    (hwf : n.WellFormed Γ) (hs : n.Simplifiable S labels) (h : n.simplify labels = .error failure) :
    n.RefusesDivision labels failure := by
  induction n using childInduction with
  | absent => exact hwf.elim
  | step n hn ih =>
    rcases simplify_eq_error hn h with ⟨c, hc, h⟩ | ⟨hoperation, parts, hparts, h⟩
    · have hwfc := hwf.part (hs.expression htraps) hc
      exact (ih c hc hwfc (hs.child hc) h).of_child hc
    · cases n with
      | binary info op x y =>
        obtain _ | ⟨⟨_, hx⟩, _ | ⟨⟨_, hy⟩, _ | _⟩⟩ := hparts
        exact refusesDivision_of_foldBinary hwf hs hworld hx hy h
      | compare info op x y =>
        -- Every relation can be folded.
        obtain _ | ⟨_, _ | ⟨_, _ | _⟩⟩ := hparts
        obtain ⟨_, rel, _, rfl⟩ := Layout.exists_of_compare hwf.2.2.2.1
        replace h : foldCompare info (.relation rel) _ _ = .error failure := h
        unfold foldCompare at h
        split at h
        · split at h <;> cases h
        · cases h
      | _ => cases hoperation

end Node

end TreeWasm
