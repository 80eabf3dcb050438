import TreeWasm.Proofs.Emission.Correct
import TreeWasm.Proofs.Simplify.Expressions

/-! # Folded expressions and their code

An integer expression can always be emitted, and its code is the same wherever it stands. The code of
an expression and that of its simplified form trap together or push the same canonical value.
-/

namespace TreeWasm

open Wasm

variable {code : Code} {Γ : Surroundings} {n : Node}

namespace Emit

variable {α β : Type} {signExt : Bool}

/-- An emission succeeds, with the same result in all places, and leaves the state as it is. -/
def Gives (signExt : Bool) (x : Emit α) (a : α) : Prop :=
  ∀ labels enclosing st, x ⟨labels, signExt, enclosing⟩ st = (.ok a, st)

namespace Gives

variable {x : Emit α} {a : α} {b : β}

theorem pure : Gives signExt (Pure.pure a) a := fun _ _ _ => rfl

theorem bind {f : α → Emit β} (hx : Gives signExt x a) (hf : Gives signExt (f a) b) :
    Gives signExt (x >>= f) b := by
  intro labels enclosing st
  rw [Steps.bind_of_ok (hx labels enclosing st)]
  exact hf labels enclosing st

theorem ofLayout {result : Except LayoutDefect α} (h : result = .ok a) :
    Gives signExt (Emit.ofLayout result) a := by
  subst h
  exact pure

theorem inside (h : Gives signExt x a) (label : Option Nat) : Gives signExt (Emit.inside label x) a :=
  fun labels enclosing st => h labels (label :: enclosing) st

/-- An emission that looks at nothing in its context but the instruction set. -/
theorem read_bind {f : EmitContext → Emit β}
    (hf : ∀ labels enclosing, f ⟨labels, signExt, enclosing⟩ = f ⟨⟨[]⟩, signExt, []⟩)
    (h : Gives signExt (f ⟨⟨[]⟩, signExt, []⟩) b) : Gives signExt (MonadReader.read >>= f) b := by
  intro labels enclosing st
  change f ⟨labels, signExt, enclosing⟩ ⟨labels, signExt, enclosing⟩ st = _
  rw [hf]
  exact h labels enclosing st

theorem blockType {l : Layout} (h : l.isScalar) : Gives signExt (Emit.blockType l) (.value l.slot) := by
  have htype : ∀ m, l.blockType m = .ok (m, .value l.slot) := by
    intro m
    rw [Layout.blockType, Layout.flatten_eq (Layout.isOk_leaves_of_isScalar h), Layout.slots_of_isScalar h]
    rfl
  intro labels enclosing st
  rw [blockType_eq, htype]

end Gives

end Emit

namespace Node

open Emit (Gives)

variable {signExt : Bool}

/-- The forms of expressions without effects. Scalars are read from memory where a static offset reaches. -/
def isReading : Node → Bool
  | constFloat .. | addressOf .. => true
  | data info _ offset => info.layout.isScalar && decide (0 ≤ offset ∧ offset ≤ 0xFFFFFFFF)
  | n => n.isExpression

theorem isReading_of_isExpression (h : n.every isExpression) : n.every isReading := by
  refine every_both (fun c hc _ => ?_) h h
  cases c <;> simp_all [isExpression, isReading]

theorem gives_ofValue {value : Emit Code} (h : Gives signExt value code) :
    Gives signExt (Emission.ofValue n value).load (.mark n.pos :: code) :=
  h.bind .pure

theorem gives_conversion {source target : Layout} {pos : Position} (h : source.isScalar) :
    ∃ code, Gives signExt (conversion pos source target) code := by
  obtain ⟨kind, hkind⟩ := Option.isSome_iff_exists.mp h
  unfold conversion
  rw [hkind]
  cases target.isBool with
  | true | false => exact ⟨_, .read_bind (fun _ _ => rfl) .pure⟩

theorem gives_unaryCode {info : Info} {op : Operator} {x : Node} {operand : Emit Code}
    (htakes : info.layout.TakesUnary op x.layout) (h : Gives signExt operand code) :
    ∃ code, Gives signExt (Emission.unaryCode info op x operand) code := by
  unfold Layout.TakesUnary at htakes
  unfold Emission.unaryCode
  split at htakes
  · exact ⟨_, .read_bind (fun _ _ => rfl) (h.bind .pure)⟩
  · exact ⟨_, .read_bind (fun _ _ => rfl) (h.bind .pure)⟩
  · by_cases hlong : info.layout.slot = .i64 <;> simp only [hlong, if_true, if_false] <;>
      exact ⟨_, .read_bind (fun _ _ => rfl) (h.bind .pure)⟩
  · exact htakes.elim

/-- Every expression can be emitted, and its code does not depend on where it stands. -/
theorem exists_gives_load (hwf : n.WellFormed Γ) (hexpr : n.every isReading) :
    ∃ code, Gives signExt n.load code := by
  induction n using partsInduction with
  | absent => exact hwf.elim
  | const32 | const64 | constFloat | locals => exact ⟨_, gives_ofValue .pure⟩
  | binary info op x y hx hy =>
    obtain ⟨left, hx⟩ := hx hwf.1 (every_child hexpr (by simp))
    obtain ⟨right, hy⟩ := hy hwf.2.1 (every_child hexpr (by simp))
    obtain ⟨kind, a, instr, hkind, rfl, hinstr⟩ := Layout.exists_of_arith hwf.2.2.2.2
    have hop := Layout.arith_eq hkind hinstr
    exact ⟨_, gives_ofValue (hx.bind (hy.bind ((Gives.ofLayout hop).bind
      (.read_bind (fun _ _ => rfl) .pure))))⟩
  | unary info op x hx =>
    obtain ⟨code, hx⟩ := hx hwf.1 (every_child hexpr (by simp))
    obtain ⟨_, hunary⟩ := gives_unaryCode hwf.2 hx
    exact ⟨_, gives_ofValue hunary⟩
  | convert info x hx =>
    obtain ⟨code, hx⟩ := hx hwf.1 (every_child hexpr (by simp))
    obtain ⟨_, hconversion⟩ := gives_conversion hwf.2.1
    exact ⟨_, gives_ofValue (hx.bind (hconversion.bind .pure))⟩
  | compare info op x y hx hy =>
    obtain ⟨left, hx⟩ := hx hwf.1 (every_child hexpr (by simp))
    obtain ⟨right, hy⟩ := hy hwf.2.1 (every_child hexpr (by simp))
    cases hop : x.layout.compare op with
    | error defect =>
      have hok := hwf.2.2.2.1
      rw [hop] at hok
      cases hok
    | ok instr =>
      exact ⟨_, gives_ofValue (hx.bind (hy.bind ((Gives.ofLayout hop).bind .pure)))⟩
  | scaledOffset info ptr index size hptr hindex =>
    obtain ⟨base, hptr⟩ := hptr hwf.1 (every_child hexpr (by simp))
    obtain ⟨factor, hindex⟩ := hindex hwf.2.1 (every_child hexpr (by simp))
    exact ⟨_, gives_ofValue (hptr.bind (hindex.bind .pure))⟩
  | ifElse info cond yes no hcond hyes hno =>
    have hself := every_self rfl hexpr
    simp only [isReading, isExpression, Bool.and_eq_true, Bool.not_eq_true'] at hself
    have hwfno : no.WellFormed Γ := by
      rcases hwf.2.2.2.2 with ⟨habsent, _⟩ | ⟨hwfno, _⟩
      · rw [hself.2] at habsent
        cases habsent
      · exact hwfno
    obtain ⟨test, hcond⟩ := hcond hwf.1 (every_child hexpr cond_mem_children)
    obtain ⟨yesCode, hyes⟩ := hyes hwf.2.2.1 (every_child hexpr yes_mem_children)
    obtain ⟨noCode, hno⟩ := hno hwfno (every_child hexpr (no_mem_children hself.2))
    refine ⟨.mark info.pos :: (test ++ [.ifElse (.value info.layout.slot) yesCode noCode]),
      gives_ofValue (hcond.bind ((Gives.blockType hself.1).bind ((hyes.inside none).bind ?_)))⟩
    rw [if_neg (by simp [hself.2])]
    exact (hno.inside none).bind .pure
  | data info addr offset haddr =>
    have hself := every_self rfl hexpr
    obtain ⟨pos, _ | ⟨tag, kind⟩ | _ | _⟩ := info
    case scalar =>
      obtain ⟨code, haddr⟩ := haddr hwf.1 (every_child hexpr (by simp))
      simp only [isReading, Bool.and_eq_true, decide_eq_true_eq] at hself
      have hload : (Layout.scalar tag kind).load offset = .ok (.load kind.loadOp offset.toInt.toNat) := by
        simp only [Layout.load, Layout.scalar?, Layout.memoryOffset, if_pos hself.2]
        rfl
      have hread : Gives signExt (Emission.loadLeaves ⟨pos, .scalar tag kind⟩ addr.emission.address offset)
          (code ++ [.load kind.loadOp offset.toInt.toNat]) := by
        rw [Emitted.loadLeaves_scalar, (emission_address hwf.1.isAbsent_eq).2]
        exact haddr.bind ((Gives.ofLayout hload).bind .pure)
      exact ⟨_, gives_ofValue hread⟩
    all_goals cases hself
  | addressOf info x _ haddr =>
    cases x with
    | data dinfo addr offset =>
      have hdata := every_child (c := .data dinfo addr offset) hexpr (by simp)
      obtain ⟨code, haddr⟩ := haddr dinfo addr offset rfl hwf.2.1 (every_child hdata (by simp))
      have hreach : ∃ code, Gives signExt (Node.data dinfo addr offset).emission.reach code := by
        rw [emission_reach]
        split
        · exact ⟨_, .pure⟩
        · rw [(emission_address hwf.2.1.isAbsent_eq).2]
          split <;> exact ⟨_, haddr.bind .pure⟩
      obtain ⟨_, hreach⟩ := hreach
      exact ⟨_, gives_ofValue hreach⟩
    | _ => exact hwf.2.elim
  | _ => cases every_self rfl hexpr

theorem targets_eq_nil (h : n.every isReading) : n.targets = [] := by
  induction n using partsInduction with
  | absent | const32 | const64 | constFloat | locals => rfl
  | binary info op x y hx hy | compare info op x y hx hy | scaledOffset info x y size hx hy =>
    rw [targets, hx (every_child h (by simp)), hy (every_child h (by simp))]
    rfl
  | unary info op x hx | convert info x hx | data info x offset hx | addressOf info x hx =>
    rw [targets, hx (every_child h (by simp))]
  | ifElse info cond yes no hcond hyes hno =>
    have hself := every_self rfl h
    simp only [isReading, isExpression, Bool.and_eq_true, Bool.not_eq_true'] at hself
    rw [targets, hcond (every_child h cond_mem_children),
      hyes (every_child h yes_mem_children),
      hno (every_child h (no_mem_children hself.2))]
    rfl
  | _ => cases every_self rfl h

/-- The code of an expression does what its evaluation does, on any stack and inside any constructs. -/
theorem runAll_load {world : World} (hworld : world.signature = Γ.functions) (hwf : n.WellFormed Γ)
    (hexpr : n.every isReading) (hload : Gives signExt n.load code) {frame : Frame}
    (hframe : frame.results = Γ.result.slots.length) (fuel : Nat) (below : List Value) (s : Store) :
    Instr.runAll world fuel frame code below s = (n.eval world .off fuel s).onto [] below := by
  obtain ⟨arities, _, types⟩ := frame
  obtain rfl := hframe
  have hserves : Site.Serves ⟨arities.map (List.replicate · .i32), Γ.result.slots, Γ.functions⟩ Γ
      ⟨⟨[]⟩, signExt, []⟩ := by
    refine ⟨rfl, rfl, fun l hl => absurd hl List.not_mem_nil, fun l _ depth hdepth => ?_⟩
    cases hdepth
  have hscalars : n.every isScalarCode := by
    refine every_both (fun c hc _ => ?_) hexpr hexpr
    cases c <;> simp_all [isReading, isExpression, isScalarCode]
  have huses : ∀ l, n.targets.count l ≤ Labels.uses ⟨[]⟩ (some l) := by
    simp [targets_eq_nil hexpr]
  obtain ⟨_, hcode⟩ := emitted_of_ready ⟨hworld, hwf, hscalars, huses, hserves⟩ default code default
    (hload ⟨[]⟩ [] default)
  have hrun := hcode ⟨types, fun _ => none⟩ ⟨List.nil_prefix, fun _ _ h => by cases h⟩ fuel below s
  simpa [Site.frame, Function.comp_def] using hrun

/-- Folding agrees with the code. An expression and its simplified form are emitted wherever they
stand, and with canonical values in the slots both codes trap or both push the same value, canonical
for the layout of the expression. An expression is refused only for a division whose operands are
simplified to constants on which it traps. -/
theorem simplify_agrees_with_code {world : World} {Γ : Surroundings}
    {kindOf : TypeKey → Option Scalar} {n : Node} (hworld : world.signature = Γ.functions)
    (hwf : n.WellFormed Γ) (hplain : n.every (isPlain kindOf)) (hexpr : n.every isExpression)
    (labels : Labels) (signExt : Bool) :
    (∀ m changed, n.simplify labels = .ok (m, changed) →
      ∃ code code', Gives signExt n.load code ∧ Gives signExt m.load code' ∧
        ∀ (frame : Frame) fuel below s, frame.results = Γ.result.slots.length →
          n.every (readsCanonical s) →
          (Instr.runAll world fuel frame code below s = some (.trap, s) ∧
            Instr.runAll world fuel frame code' below s = some (.trap, s)) ∨
          ∃ kind v, n.layout.scalar? = some kind ∧ kind.isCanonical v ∧
            Instr.runAll world fuel frame code below s = some (.normal (v :: below), s) ∧
            Instr.runAll world fuel frame code' below s = some (.normal (v :: below), s)) ∧
    ∀ failure, n.simplify labels = .error failure → n.RefusesDivision labels failure := by
  have hread := isReading_of_isExpression hexpr
  have hs : n.Simplifiable ⟨world, kindOf, true⟩ labels :=
    ⟨hplain, by simp [targets_eq_nil hread], fun _ => hexpr⟩
  refine ⟨fun m changed hm => ?_, fun failure hfail =>
    refusesDivision_of_simplify rfl hworld hwf hs hfail⟩
  have hrefines := (Setting.simplifies _ labels hs ⟨_, hm⟩).value hworld hwf
  have hreadm := isReading_of_isExpression (isExpression_of_becomes hplain hexpr ⟨changed, hm⟩)
  obtain ⟨code, hload⟩ := exists_gives_load hwf hread
  obtain ⟨code', hload'⟩ := exists_gives_load hrefines.wellFormed hreadm
  refine ⟨code, code', hload, hload', fun frame fuel below s hframe hreads => ?_⟩
  obtain ⟨kind, hkind, hsettles⟩ := eval_settles ⟨hwf, hplain, hexpr, hreads⟩
  rw [runAll_load hworld hwf hread hload hframe, runAll_load hworld hrefines.wellFormed hreadm hload' hframe]
  rcases hsettles with htrap | ⟨v, hv, hvalue⟩
  · have htrap' := hrefines.keeps fuel s _ _ htrap (fun _ => rfl)
    rw [eval_off htrap, eval_off htrap']
    exact .inl ⟨rfl, rfl⟩
  · have hvalue' := hrefines.keeps fuel s _ _ hvalue (fun h => by cases h)
    rw [eval_off hvalue, eval_off hvalue']
    exact .inr ⟨kind, v, hkind, hv, rfl, rfl⟩

/-- The quotient of a sum of byte constants, which wraps, by a byte in a slot. -/
def byteQuotient : Node :=
  .binary byte (.arith .div)
    (.binary byte (.arith .add) (.const32 byte 200) (.const32 byte 100)) (.locals byte [0])
where
  byte : Info := ⟨.unset, .scalar ⟨.builtin .u8, "u8"⟩ .u8⟩

/-- The same with the sum computed. -/
def simplerByteQuotient : Node :=
  .binary byteQuotient.byte (.arith .div) (.const32 byteQuotient.byte 44) (.locals byteQuotient.byte [0])

theorem simplify_agrees_with_code_byteQuotient :
    byteQuotient.simplify ⟨[]⟩ = .ok (simplerByteQuotient, true) ∧
      ∃ code code', Gives false byteQuotient.load code ∧ Gives false simplerByteQuotient.load code' ∧
        ∀ divisor : Fin 8,
          let s := (default : Store).setLocal 0 (.i32 (BitVec.ofNat 32 divisor))
          Instr.runAll default 0 ⟨[], 0, []⟩ code [] s = Instr.runAll default 0 ⟨[], 0, []⟩ code' [] s := by
  have hsimplify : byteQuotient.simplify ⟨[]⟩ = .ok (simplerByteQuotient, true) := by rfl
  have hwf : byteQuotient.WellFormed ⟨fun _ => some .i32, fun _ => none, .unit, []⟩ :=
    ⟨⟨rfl, rfl, rfl, rfl, rfl⟩, ⟨rfl, rfl⟩, rfl, rfl, rfl⟩
  have hplain : byteQuotient.every (isPlain (fun _ => some .u8)) := by decide
  obtain ⟨code, code', hload, hload', hruns⟩ :=
    (@simplify_agrees_with_code default _ _ _ rfl hwf hplain (by decide) ⟨[]⟩ false).1 _ _ hsimplify
  refine ⟨hsimplify, code, code', hload, hload', fun divisor => ?_⟩
  have hreads : ∀ divisor : Fin 8, byteQuotient.every
      (readsCanonical ((default : Store).setLocal 0 (.i32 (BitVec.ofNat 32 divisor)))) := by
    decide
  rcases hruns ⟨[], 0, []⟩ 0 [] _ rfl (hreads divisor) with ⟨h, h'⟩ | ⟨_, _, _, _, h, h'⟩
  · exact h.trans h'.symm
  · exact h.trans h'.symm

end Node

end TreeWasm
