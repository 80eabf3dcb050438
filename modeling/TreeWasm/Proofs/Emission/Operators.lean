import TreeWasm.Proofs.Emission.Performs
import TreeWasm.Proofs.Meaning.Words

/-! # The code of operators and accesses

What the instructions chosen for operators, conversions and accesses to memory do to the operands on
the stack, with sign-extension instructions and without.
-/

namespace TreeWasm

open Wasm

namespace Layout

variable {offset : Int64} {l : Layout} {immediate : Nat} {instr : Numeric} {op : Operator}

theorem types_arith (h : l.arith op = .ok instr) :
    instr.params = [l.slot, l.slot] ∧ instr.result = l.slot := by
  have hok : (l.arith op).isOk := by rw [h]; rfl
  obtain ⟨kind, a, _, hkind, rfl, _⟩ := exists_of_arith hok
  rw [slot_of_scalar? hkind]
  simp only [arith, hkind] at h
  cases kind <;> cases a <;> cases h <;> exact ⟨rfl, rfl⟩

theorem types_compare (h : l.compare op = .ok instr) :
    instr.params = [l.slot, l.slot] ∧ instr.result = .i32 := by
  have hok : (l.compare op).isOk := by rw [h]; rfl
  obtain ⟨kind, rel, hkind, rfl⟩ := exists_of_compare hok
  rw [slot_of_scalar? hkind]
  simp only [compare, hkind] at h
  cases kind <;> cases h <;> exact ⟨rfl, rfl⟩

/-- The immediate of an access is its static offset, and fits 32 bits. -/
theorem of_memoryOffset (h : memoryOffset offset = .ok immediate) :
    offset.toInt = immediate ∧ immediate < 2 ^ 32 := by
  unfold memoryOffset at h
  split at h
  next hrange =>
    cases h
    have hlow := Int64.le_iff_toInt_le.mp hrange.1
    have hhigh := Int64.le_iff_toInt_le.mp hrange.2
    rw [Int64.toInt_zero] at hlow
    have hbound : (0xFFFFFFFF : Int64).toInt = 2 ^ 32 - 1 := by decide
    omega
  · cases h

theorem effective_of_memoryOffset {a : BitVec 32} (h : memoryOffset offset = .ok immediate) :
    (a.toNat : Int) + immediate = effective a offset := by
  rw [effective, (of_memoryOffset h).1]

end Layout

namespace Wasm

theorem shifts_eq_signExtend (x : BitVec 32) {n : Nat} (hpos : 0 < n) (hn : n ≤ 32) :
    (x <<< (32 - n)).sshiftRight (32 - n) = (x.setWidth n).signExtend 32 := by
  ext i hi
  rw [BitVec.getElem_sshiftRight, BitVec.getElem_signExtend]
  by_cases hlow : i < n
  · rw [dif_pos (by omega), dif_pos hlow, BitVec.getElem_shiftLeft, BitVec.getElem_setWidth]
    have hnot : ¬ 32 - n + i < 32 - n := by omega
    simp only [hnot, decide_false, Bool.not_false, Bool.true_and, Nat.add_sub_cancel_left]
    exact (BitVec.getLsbD_eq_getElem hi).symm
  · have htop : 32 - 1 - (32 - n) = n - 1 := by omega
    rw [dif_neg (by omega), dif_neg hlow, BitVec.msb_shiftLeft, BitVec.msb_eq_getLsbD_last,
      BitVec.getMsbD_eq_getLsbD, BitVec.getLsbD_setWidth, htop, decide_eq_true (by omega),
      decide_eq_true (by omega)]

theorem and_eq_setWidth (x : BitVec 32) {n : Nat} (hn : n ≤ 32) :
    x &&& BitVec.ofNat 32 (2 ^ n - 1) = (x.setWidth n).setWidth 32 := by
  have hpow : 2 ^ n ≤ 2 ^ 32 := Nat.pow_le_pow_right (by decide) hn
  have hlt : x.toNat % 2 ^ n < 2 ^ n := Nat.mod_lt _ (Nat.two_pow_pos n)
  apply BitVec.eq_of_toNat_eq
  rw [toNat_and_mask x n hn, BitVec.toNat_setWidth, BitVec.toNat_setWidth]
  exact (Nat.mod_eq_of_lt (by omega)).symm

namespace Instr

variable {world : World} {fuel : Nat} {frame : Frame} {x : BitVec 32} {signExt : Bool}
  {instr : Instr} {c : Int32} {offset : Int64} {below operands : List Value} {op : Numeric}
  {kind : Scalar} {s : Store} {tag : TypeTag} {v : Value}

theorem run_numeric (operands : List Value) (hlen : operands.length = op.params.length) :
    run world fuel frame (.numeric op) (operands.reverse ++ below) s =
      Result.ofAttempt ((op.apply world.floats operands).map (fun v => v :: below)) s := by
  have hreverse : operands.reverse.length = op.params.length := by rw [List.length_reverse, hlen]
  simp only [run, step]
  rw [List.take_left' hreverse, List.drop_left' hreverse, List.reverse_reverse]

theorem runAll_const32_int (op : IntOp) {r : BitVec 32} (h : op.eval x c.toBitVec = .ok r)
    (rest : Code) (below : List Value) (s : Store) :
    runAll world fuel frame (.const32 c :: .numeric (.int .w32 op) :: rest) (.i32 x :: below) s =
      runAll world fuel frame rest (.i32 r :: below) s := by
  simp [runAll, run, step, Numeric.params, h]

/-- Without sign-extension instructions, the sign is extended by shifts. -/
theorem runAll_shifts {n : Nat} (hpos : 0 < n) (hn : n ≤ 32) (hc : c.toBitVec.toNat % 32 = 32 - n)
    (x : BitVec 32) (below : List Value) (s : Store) :
    runAll world fuel frame (Scalar.clamp.shifts c) (.i32 x :: below) s =
      some (.normal (.i32 ((x.setWidth n).signExtend 32) :: below), s) := by
  rw [Scalar.clamp.shifts, runAll_const32_int .shl rfl, runAll_const32_int (.shr .signed) rfl,
    hc, shifts_eq_signExtend x hpos hn, runAll]

theorem runAll_clamp :
    runAll world fuel frame (kind.clamp signExt) (v :: below) s =
      Result.ofAttempt ((kind.narrow v).map (fun w => w :: below)) s := by
  cases kind with
  | u8 =>
    cases v with
    | i32 x =>
      have hmask := and_eq_setWidth x (n := 8) (by decide)
      rw [Scalar.clamp, runAll_const32_int .and (congrArg Except.ok hmask)]
      rfl
    | _ => rfl
  | u16 =>
    cases v with
    | i32 x =>
      have hmask := and_eq_setWidth x (n := 16) (by decide)
      rw [Scalar.clamp, runAll_const32_int .and (congrArg Except.ok hmask)]
      rfl
    | _ => rfl
  | i8 | i16 =>
    cases signExt with
    | true => cases v <;> rfl
    | false =>
      cases v with
      | i32 x => exact runAll_shifts (by decide) (by decide) rfl x below s
      | _ => rfl
  | _ => rfl

theorem runAll_layout_clamp {l : Layout} :
    runAll world fuel frame (l.clamp signExt) (v :: below) s =
      Result.ofAttempt ((l.narrow v).map (fun w => w :: below)) s := by
  cases hkind : l.scalar? with
  | none =>
    rw [Layout.clamp, Layout.narrow, hkind]
    rfl
  | some kind =>
    rw [Layout.clamp, Layout.narrow, hkind]
    exact runAll_clamp

/-- An operation on the operands on top, narrowed to a layout. -/
theorem runAll_numeric_clamp {l : Layout} (operands : List Value)
    (hlen : operands.length = op.params.length) :
    runAll world fuel frame (.numeric op :: l.clamp signExt) (operands.reverse ++ below) s =
      Result.ofAttempt (((op.apply world.floats operands).bind l.narrow).map (fun v => v :: below))
        s := by
  rw [runAll, run_numeric operands hlen]
  cases op.apply world.floats operands with
  | value v => exact runAll_layout_clamp
  | trap => rfl
  | stuck => rfl

theorem runAll_truth :
    runAll world fuel frame (truth kind) (v :: below) s =
      Result.ofAttempt ((kind.truthOf world.floats v).map (fun w => w :: below)) s := by
  cases kind with
  | bool => rfl
  | f32 => exact runAll_singleton.trans (run_numeric [v, .f32 0] rfl)
  | f64 => exact runAll_singleton.trans (run_numeric [v, .f64 0] rfl)
  | i64 | u64 =>
    cases v with
    | i64 x => simp [truth, Scalar.slot, Scalar.truthOf, runAll, run, step, Numeric.params, Value.ofBool]
    | _ => rfl
  | _ =>
    cases v with
    | i32 x => simp [truth, Scalar.slot, Scalar.truthOf, runAll, run, step, Numeric.params, Value.ofBool]
    | _ => rfl

/-! Accesses to a scalar in memory. -/

theorem run_load (h : (Layout.scalar tag kind).load offset = .ok instr) (a : BitVec 32)
    (below : List Value) (s : Store) :
    run world fuel frame instr (.i32 a :: below) s =
      Result.ofAttempt (((Layout.scalar tag kind).readAt s.memory a offset).map
        (fun values => values.reverse ++ below)) s := by
  obtain ⟨immediate, himmediate, rfl⟩ := Except.exists_of_map h
  simp only [run, step, Layout.effective_of_memoryOffset himmediate, Layout.readAt,
    Layout.leaves, Layout.readLeaves, Int64.add_zero]
  cases s.memory.load kind.loadOp (Layout.effective a offset) <;> rfl

theorem run_store (h : (Layout.scalar tag kind).store offset = .ok instr) {a : BitVec 32}
    {enclosing : List (Option Nat)} :
    run world fuel frame instr (v :: .i32 a :: below) s =
      ((Layout.scalar tag kind).writeAt a offset [v] s).onto enclosing below := by
  obtain ⟨immediate, himmediate, rfl⟩ := Except.exists_of_map h
  simp only [run, step, Layout.effective_of_memoryOffset himmediate, Layout.writeAt,
    Layout.leaves, Layout.writeLeaves, Int64.add_zero]
  cases s.memory.store kind.storeOp (Layout.effective a offset) v <;> rfl

end Instr

end Wasm

namespace Emit.Ensures

variable {ctx : EmitContext}

section

variable {source target : Layout} {a b : Scalar} (ha : source.scalar? = some a) (hb : target.scalar? = some b)
  (pos : Position)

include ha hb

theorem conversion_eq : Ensures ctx (TreeWasm.conversion pos source target) (fun code _ =>
    code = if b = .bool then truth a
      else (a.conversion? b).toList.map .numeric ++ b.clamp ctx.signExt) := by
  refine read.bind_of (fun c hc => ?_)
  obtain ⟨_, rfl⟩ := hc
  have hbool : target.isBool = decide (b = .bool) := by
    rw [Layout.isBool, hb]
    cases b <;> rfl
  have hsign : (if target.isSigned then Sign.signed else .unsigned) = b.sign := by
    rw [Layout.isSigned, hb]
    cases b <;> rfl
  rw [ha, hbool, hsign, Layout.clamp, hb, Layout.slot_of_scalar? hb]
  simp only [decide_eq_true_eq]
  split
  · exact .pure (fun _ _ => rfl)
  · refine .pure (fun _ _ => ?_)
    have hwide (h : b.slot ≠ .i32) : b.clamp c.signExt = [] := by
      cases b <;> first | rfl | exact absurd rfl h
    rw [Option.elim_some, Scalar.conversion?]
    cases hgiven : a.slot <;> cases hwanted : b.slot <;> first
      | rfl | exact absurd hgiven a.slot_ne_invalid | rw [hwide (by rw [hwanted]; decide)]; rfl

theorem conversion : Ensures ctx (TreeWasm.conversion pos source target) (fun code _ =>
      ∀ (world : World) fuel frame v below s,
        Instr.runAll world fuel frame code (v :: below) s =
          Result.ofAttempt ((a.convert world.floats b v).map (fun w => w :: below)) s) := by
  refine (conversion_eq ha hb pos).mono (fun code _ hcode world fuel frame v below s => ?_)
  subst hcode
  split
  next h =>
    rw [Scalar.convert, if_pos h]
    exact Instr.runAll_truth
  next h =>
    rw [Scalar.convert_eq h]
    cases hop : a.conversion? b with
    | none => exact Instr.runAll_clamp
    | some op =>
      have hlen := congrArg List.length (Scalar.types_conversion? hop).1
      exact Instr.runAll_numeric_clamp (l := .scalar ⟨.openArray, ""⟩ b) [v] hlen.symm

end

end Emit.Ensures

end TreeWasm
