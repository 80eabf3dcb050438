import TreeWasm.Proofs.Meaning.Integers
import TreeWasm.Proofs.Simplify.Keeps

/-! # Pure code comes to an end

A pure node ends in the store it started from, with a value for each of its slots. One thing can keep
it from that: a read outside memory, which traps. A signed quotient by -1 and a floating-point number
taken for an address may have no result either; they are left out here.
-/

namespace TreeWasm

open Wasm

variable {x : Attempt Value} {info : Info} {op : Operator} {v : Value}

namespace Wasm

variable {floats : FloatUnit} {args : List Value} {op : Numeric} {type : ValType} {v : Value}

theorem Value.exists_i32 (h : v.type = .i32) : ∃ x, v = .i32 x := exists_word (w := .w32) h

theorem Value.exists_one_word {w : Width} (h : args.map Value.type = [w.int]) : ∃ x, args = [.word w x] := by
  obtain ⟨_, rfl, hx⟩ := List.map_eq_singleton_iff.mp h
  obtain ⟨x, rfl⟩ := exists_word hx
  exact ⟨x, rfl⟩

theorem Value.exists_two_words {w : Width} (h : args.map Value.type = [w.int, w.int]) :
    ∃ x y, args = [.word w x, .word w y] := by
  obtain ⟨_, _, rfl, hx, hy⟩ := List.map_eq_cons_iff.mp h
  obtain ⟨x, rfl⟩ := exists_word hx
  obtain ⟨y, rfl⟩ := exists_one_word hy
  exact ⟨x, y, rfl⟩

/-- A computation ends with a value of a type. -/
def Attempt.HasType (x : Attempt Value) (type : ValType) : Prop := ∃ v, x = .value v ∧ v.type = type

theorem Attempt.HasType.bind {f : Value → Attempt Value} {type' : ValType} (h : x.HasType type)
    (hf : ∀ v, v.type = type → (f v).HasType type') : (x.bind f).HasType type' := by
  obtain ⟨v, rfl, hv⟩ := h
  exact hf v hv

/-- Whether an operation has no result for some divisors. -/
def IntOp.divides : IntOp → Bool
  | div _ | rem _ => true
  | _ => false

theorem IntOp.exists_eval {w : Nat} {op : IntOp} {x y : BitVec w} (hzero : op.divides → y ≠ 0)
    (hones : op = .div .signed → y ≠ BitVec.allOnes w) : ∃ r, op.eval x y = .ok r := by
  cases op with
  | div sign | rem sign => cases sign <;> simp_all [eval, divides]
  | shr sign => cases sign <;> exact ⟨_, rfl⟩
  | _ => exact ⟨_, rfl⟩

/-- Whether an instruction has a result for all operands. -/
def Numeric.isTotal : Numeric → Bool
  | truncate .. => false
  | int _ op => !op.divides
  | _ => true

theorem Numeric.apply_hasType (hargs : args.map Value.type = op.params) (htotal : op.isTotal) :
    (op.apply floats args).HasType op.result := by
  have hfloat (h : op.truncates = false) :
      ((floats.eval op args).elim Attempt.trap Attempt.value).HasType op.result := by
    obtain ⟨v, hv⟩ := Option.isSome_iff_exists.mp (floats.total op args h)
    exact ⟨v, by rw [hv]; rfl, floats.typed op args v hv⟩
  cases op with
  | truncate => cases htotal
  | floatCompare | float | floatNegate | convert | demote | promote =>
    simpa [apply, isFloat, hargs] using hfloat rfl
  | int w iop =>
    obtain ⟨x, y, rfl⟩ := Value.exists_two_words hargs
    have hdivides : iop.divides = false := by simpa [isTotal] using htotal
    have hone : iop ≠ .div .signed := by
      rintro rfl
      cases hdivides
    obtain ⟨r, hr⟩ := IntOp.exists_eval (by simp [hdivides]) (absurd · hone)
    exact ⟨.word w r, by rw [apply_int, hr]; rfl, Value.type_word⟩
  | intCompare w rel =>
    obtain ⟨x, y, rfl⟩ := Value.exists_two_words hargs
    exact ⟨_, apply_intCompare, rfl⟩
  | isZero w =>
    obtain ⟨x, rfl⟩ := Value.exists_one_word hargs
    exact ⟨.ofBool (x == 0), by cases w <;> rfl, rfl⟩
  | wrap =>
    obtain ⟨x, rfl⟩ := Value.exists_one_word (w := .w64) hargs
    exact ⟨_, rfl, rfl⟩
  | extend sign =>
    obtain ⟨x, rfl⟩ := Value.exists_one_word (w := .w32) hargs
    cases sign <;> exact ⟨_, rfl, rfl⟩
  | extend8 | extend16 =>
    obtain ⟨x, rfl⟩ := Value.exists_one_word (w := .w32) hargs
    exact ⟨_, rfl, rfl⟩

end Wasm

namespace Scalar

variable {kind source target : Scalar} {floats : FloatUnit} {v : Value}

theorem arith?_types {a : Arith} {instr : Numeric} (h : kind.arith? a = some instr) :
    instr.params = [kind.slot, kind.slot] ∧ instr.result = kind.slot ∧
      (Node.isDivision (.arith a) = false → instr.isTotal) := by
  cases kind <;> cases a <;> simp [arith?, FloatOp.ofArith?] at h <;> subst h <;>
    simp [Numeric.params, Numeric.result, Numeric.isTotal, IntOp.ofArith, IntOp.divides,
      Node.isDivision, slot, Width.int, Width.float]

theorem narrow_hasType (hv : v.type = kind.slot) : (kind.narrow v).HasType kind.slot := by
  unfold narrow
  split
  next hclamp =>
    have hslot : kind.slot = .i32 := by cases kind <;> simp_all [needsClamp, slot]
    rw [hslot] at hv ⊢
    obtain ⟨x, rfl⟩ := Value.exists_i32 hv
    exact ⟨_, rfl, rfl⟩
  · exact ⟨v, rfl, hv⟩

theorem truthOf_hasType (hv : v.type = kind.slot) : (kind.truthOf floats v).HasType .i32 := by
  unfold truthOf
  split
  next hbool =>
    subst hbool
    exact ⟨v, rfl, hv⟩
  · cases hslot : kind.slot with
    | i32 =>
      obtain ⟨x, rfl⟩ := Value.exists_i32 (hv.trans hslot)
      exact ⟨_, rfl, rfl⟩
    | i64 =>
      obtain ⟨x, rfl⟩ := Value.exists_word (w := .w64) (hv.trans hslot)
      exact ⟨_, rfl, rfl⟩
    | f32 | f64 => exact Numeric.apply_hasType (by simp [hv, hslot]; rfl) rfl
    | invalid => exact absurd hslot kind.slot_ne_invalid

/-- Only a floating-point number that becomes an integer or an address may have no counterpart. -/
theorem convert_hasType (hv : v.type = source.slot)
    (hint : source.slot = .f32 ∨ source.slot = .f64 → target ≠ bool →
      target.slot = .f32 ∨ target.slot = .f64) :
    (source.convert floats target v).HasType target.slot := by
  by_cases hbool : target = bool
  · subst hbool
    exact truthOf_hasType hv
  · rw [convert_eq hbool]
    refine Attempt.HasType.bind ?_ (fun _ => narrow_hasType)
    cases hop : source.conversion? target with
    | none => exact ⟨v, rfl, hv.trans (slot_eq_of_conversion? hop)⟩
    | some op =>
      obtain ⟨hparams, hresult⟩ := types_conversion? hop
      refine hresult ▸ Numeric.apply_hasType (by simp [hv, hparams]) ?_
      unfold conversion? at hop
      split at hop <;> cases hop <;> simp_all [Numeric.isTotal]

end Scalar

namespace Layout

variable {floats : FloatUnit} {kind : Scalar} {l source : Layout} {op : Operator} {v w : Value}

theorem slot_ne_invalid (h : l.isScalar) : l.slot ≠ .invalid := by
  obtain ⟨kind, hkind⟩ := Option.isSome_iff_exists.mp h
  exact slot_of_scalar? hkind ▸ kind.slot_ne_invalid

theorem narrow_hasType (hkind : l.scalar? = some kind) (hv : v.type = kind.slot) :
    (l.narrow v).HasType kind.slot := by
  rw [narrow, hkind]
  exact Scalar.narrow_hasType hv

theorem compareValue_hasType (hop : (l.compare op).isOk) (hv : v.type = l.slot)
    (hw : w.type = l.slot) : (l.compareValue floats op [v, w]).HasType .i32 := by
  obtain ⟨kind, rel, hkind, rfl⟩ := exists_of_compare hop
  have htypes : (kind.compare rel).params = [kind.slot, kind.slot] ∧
      (kind.compare rel).result = .i32 ∧ (kind.compare rel).isTotal := by
    cases kind <;> exact ⟨rfl, rfl, rfl⟩
  obtain ⟨hparams, hresult, htotal⟩ := htypes
  rw [slot_of_scalar? hkind] at hv hw
  have happly : ((kind.compare rel).apply floats [v, w]).HasType _ :=
    Numeric.apply_hasType (by simp [hparams, hv, hw]) htotal
  simpa [compareValue, compare, hkind, hresult] using happly

theorem unaryValue_hasType (htakes : l.TakesUnary op source) (hv : v.type = source.slot) :
    (l.unaryValue floats source op [v]).HasType l.slot := by
  obtain ⟨kind, hkind⟩ := Option.isSome_iff_exists.mp htakes.isScalar
  have hkindslot := slot_of_scalar? hkind
  have hnarrow (hword : l.slot = .i32) (w : Value) (hw : w.type = .i32) : (l.narrow w).HasType .i32 := by
    rw [hkindslot] at hword
    exact hword ▸ narrow_hasType hkind (hw.trans hword.symm)
  unfold TakesUnary at htakes
  unfold unaryValue
  split at htakes
  · obtain ⟨hscalar, hslot⟩ := htakes
    rw [hslot] at hv
    cases hl : l.slot with
    | f32 | f64 | i64 => exact Numeric.apply_hasType (by simp [hv, hl]; rfl) rfl
    | i32 =>
      refine (Numeric.apply_hasType ?_ rfl).bind (hnarrow hl)
      simp [hv, hl]
      rfl
    | invalid => exact absurd hl (slot_ne_invalid hscalar)
  · obtain ⟨hl, hsource⟩ := htakes
    rw [hl]
    obtain hsource | hsource := hsource <;> rw [hsource] at hv ⊢ <;>
      exact Numeric.apply_hasType (by simp [hv]; rfl) rfl
  · obtain ⟨hl, hslot⟩ := htakes
    rw [hslot] at hv
    obtain hl | hl := hl <;> rw [hl] at hv ⊢
    · refine (Numeric.apply_hasType ?_ rfl).bind (hnarrow hl)
      simp [hv]
      rfl
    · exact Numeric.apply_hasType (by simp [hv]; rfl) rfl
  · exact htakes.elim

/-- Reading leaves ends with a value for each of them, unless one lies outside memory. -/
theorem readLeaves_settles {m : Memory} {a : BitVec 32} {offset : Int64} {leaves : List Leaf} :
    (∃ values, readLeaves m a offset leaves = .value values ∧
        values.map Value.type = leaves.map (fun leaf => leaf.kind.slot)) ∨
      readLeaves m a offset leaves = .trap ∧ ∃ leaf ∈ leaves,
        m.inBounds (effective a (offset + leaf.offset)) leaf.kind.loadOp.width = false := by
  induction leaves with
  | nil => exact .inl ⟨[], rfl, rfl⟩
  | cons leaf rest ih =>
    rw [readLeaves, Memory.load]
    cases hbounds : m.inBounds (effective a (offset + leaf.offset)) leaf.kind.loadOp.width with
    | false => exact .inr ⟨rfl, leaf, (.head _), hbounds⟩
    | true =>
      rw [if_pos rfl, Attempt.bind_value]
      obtain ⟨values, hvalues, htypes⟩ | ⟨htrap, other, hother, hout⟩ := ih
      · refine .inl ⟨_, by rw [hvalues]; rfl, ?_⟩
        rw [List.map_cons, List.map_cons, htypes, List.cons.injEq]
        refine ⟨?_, rfl⟩
        cases leaf.kind <;> rfl
      · exact .inr ⟨by rw [htrap]; rfl, other, List.mem_cons_of_mem leaf hother, hout⟩

end Layout

/-- The slots of a store have values of their types. -/
def Wasm.Store.Fills (Γ : Surroundings) (s : Store) : Prop :=
  ∀ slot type, Γ.slots slot = some type → (s.locals slot).type = type

namespace Wasm.Result

/-- A run from a store that ends in it with values of these types, or traps for a given reason. -/
def Harmless (s : Store) (types : List ValType) (reason : Prop) (r : Result) : Prop :=
  (∃ values, r = some (.normal values, s) ∧ values.map Value.type = types) ∨ r = some (.trap, s) ∧ reason

variable {s : Store} {types types' : List ValType} {reason reason' : Prop} {r : Result}

theorem Harmless.andThen {next : List Value → Store → Result} (h : r.Harmless s types reason)
    (hreason : reason → reason')
    (hnext : ∀ values, values.map Value.type = types → (next values s).Harmless s types' reason') :
    (r.andThen next).Harmless s types' reason' := by
  obtain ⟨values, rfl, htypes⟩ | ⟨rfl, h⟩ := h
  · exact hnext values htypes
  · exact .inr ⟨rfl, hreason h⟩

theorem settles_ofValue {type : ValType} (h : x.HasType type) : (ofValue x s).Harmless s [type] reason := by
  obtain ⟨v, rfl, hv⟩ := h
  exact .inl ⟨[v], rfl, by simp [hv]⟩

end Wasm.Result

namespace Node

open Result (settles_ofValue)

variable {world : World} {fuel : Nat} {s : Store} {Γ : Surroundings}

/-- Some read inside a node goes outside memory. -/
inductive Strays (world : World) (fuel : Nat) (s : Store) : Node → Prop
  | read {info addr offset a leaves leaf} : addr.eval world .off fuel s = some (.normal [.i32 a], s) →
      info.layout.leaves = .ok leaves → leaf ∈ leaves →
      s.memory.inBounds (Layout.effective a (offset + leaf.offset)) leaf.kind.loadOp.width = false →
      Strays world fuel s (data info addr offset)
  | part {n c} : c ∈ n.children → Strays world fuel s c → Strays world fuel s n

/-- Whether a node is neither a signed quotient by -1 nor a floating-point number taken for an
address. -/
def isExact : Node → Bool
  | binary info op _ y =>
    !(op = .arith .div && info.layout.isSigned && y.constant?.elim false (fun c => c.int = -1))
  | convert info x => !(x.layout.isFloat && info.layout.scalar? = some .pointer)
  | _ => true

theorem evalAll_settles {nodes : List Node} {reason : Prop}
    (h : ∀ n ∈ nodes, (n.eval world .off fuel s).Harmless s n.layout.slots reason) :
    (evalAll world .off fuel nodes s).Harmless s (nodes.flatMap (fun n => n.layout.slots)) reason := by
  induction nodes with
  | nil => exact .inl ⟨[], rfl, rfl⟩
  | cons n rest ih =>
    refine (h n (.head _)).andThen id (fun values hvalues => ?_)
    refine (ih (fun m hm => h m (.tail _ hm))).andThen id (fun more hmore => ?_)
    exact .inl ⟨_, rfl, by rw [List.map_append, hvalues, hmore]; rfl⟩

theorem types_locals {slots : List Nat} {types : List ValType} (hs : s.Fills Γ)
    (h : slots.map Γ.slots = types.map some) : (slots.map s.locals).map Value.type = types := by
  induction slots generalizing types with
  | nil => simpa using h.symm
  | cons slot rest ih =>
    obtain ⟨type, more, rfl, htype, hmore⟩ := List.map_eq_cons_iff.mp h.symm
    rw [List.map_cons, List.map_cons, ih hmore.symm, hs slot type htype.symm]

/-- A divisor that a pure node may have is a constant other than zero. -/
theorem divisor_cases {x y : Node} (hy : y.isNonzero) (hexact : (binary info op x y).isExact) :
    ∃ (w : Width) (d : BitVec w.bits),
      (∀ world watch fuel s, y.eval world watch fuel s = some (.normal [.word w d], s)) ∧ d ≠ 0 ∧
        (op = .arith .div → info.layout.isSigned → d ≠ BitVec.allOnes w.bits) := by
  cases y with
  | const32 yinfo v =>
    refine ⟨.w32, v.toBitVec, fun _ _ _ _ => rfl, fun hzero => ?_, fun hop hsigned hones => ?_⟩
    · obtain rfl : v = 0 := Int32.toBitVec_inj.mp hzero
      cases hy
    · obtain rfl : v = -1 := Int32.toBitVec_inj.mp hones
      simp [isExact, hop, hsigned, constant?] at hexact
  | const64 yinfo v =>
    refine ⟨.w64, v.toBitVec, fun _ _ _ _ => rfl, fun hzero => ?_, fun hop hsigned hones => ?_⟩
    · obtain rfl : v = 0 := Int64.toBitVec_inj.mp hzero
      cases hy
    · obtain rfl : v = -1 := Int64.toBitVec_inj.mp hones
      simp [isExact, hop, hsigned, constant?] at hexact
  | _ => cases hy

theorem binary_settles {x y : Node} {v' : Value} (hop : (info.layout.arith op).isOk)
    (hv : v.type = info.layout.slot) (hv' : v'.type = info.layout.slot)
    (hy : y.eval world .off fuel s = some (.normal [v'], s)) (hpure : !isDivision op || y.isNonzero)
    (hexact : (binary info op x y).isExact) :
    (info.layout.binaryValue world.floats op [v, v']).HasType info.layout.slot := by
  obtain ⟨kind, a, instr, hkind, rfl, hinstr⟩ := Layout.exists_of_arith hop
  obtain ⟨hparams, hresult, htotal⟩ := Scalar.arith?_types hinstr
  rw [Layout.slot_of_scalar? hkind] at hv hv' ⊢
  cases hdivision : isDivision (.arith a) with
  | false =>
    rw [Layout.binaryValue, Layout.arith_eq hkind hinstr]
    refine (Numeric.apply_hasType (by simp [hparams, hv, hv']) (htotal hdivision)).bind (fun r hr => ?_)
    exact Layout.narrow_hasType hkind (hr.trans hresult)
  | true =>
    rw [hdivision] at hpure
    have hsigned (h : IntOp.ofArith kind.sign a = .div .signed) :
        Operator.arith a = .arith .div ∧ info.layout.isSigned := by
      cases a <;> simp_all [IntOp.ofArith, Layout.isSigned]
    obtain ⟨w, d, hd, hzero, hones⟩ := divisor_cases (by simpa using hpure) hexact
    obtain rfl : Value.word w d = v' := by simpa [hd] using hy
    have hslot := hv'.symm.trans Value.type_word
    obtain ⟨u, rfl⟩ := Value.exists_word (hv.trans hslot)
    obtain ⟨r, hr⟩ := IntOp.exists_eval (fun _ => hzero) (fun h => hones (hsigned h).1 (hsigned h).2)
    rw [Layout.binaryValue_word hkind hslot hinstr, hr]
    exact ⟨_, rfl, Value.type_word.trans hslot.symm⟩

theorem convertValue_settles {x : Node} {floats : FloatUnit} (hsource : x.layout.isScalar)
    (htarget : info.layout.isScalar) (hv : v.type = x.layout.slot)
    (hpure : !(x.layout.isFloat && info.layout.isInteger)) (hexact : (convert info x).isExact) :
    (x.layout.convertValue floats info.layout [v]).HasType info.layout.slot := by
  obtain ⟨source, hsource⟩ := Option.isSome_iff_exists.mp hsource
  obtain ⟨target, htarget⟩ := Option.isSome_iff_exists.mp htarget
  rw [Layout.slot_of_scalar? hsource] at hv
  rw [Layout.slot_of_scalar? htarget]
  simp only [Layout.convertValue, hsource, htarget]
  refine Scalar.convert_hasType hv (fun hfloat hbool => ?_)
  simp only [isExact, Layout.isFloat, Layout.isInteger, Layout.isBool, Layout.isScalar, hsource,
    htarget] at hpure hexact
  cases source <;> simp [Scalar.slot] at hfloat <;> cases target <;> simp_all [Scalar.slot]

/-- Half of the word to which the address in the first slot leads. -/
def half : Node :=
  let word : Info := ⟨.unset, .index⟩
  binary word (.arith .div) (data word (locals word [0]) 0) (const32 word 2)

/-- A function whose slots are all words. -/
def words : Surroundings := ⟨fun _ => some .i32, fun _ => none, .unit, []⟩

theorem half_wellFormed : half.WellFormed words := ⟨⟨⟨rfl, rfl⟩, rfl, rfl⟩, rfl, rfl, rfl, rfl⟩

end Node

end TreeWasm
