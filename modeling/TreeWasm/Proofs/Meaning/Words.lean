import TreeWasm.Proofs.Meaning.Scalar

/-! # Canonical words

How the canonical form of constants, which is computed on 64-bit integers, and the narrowing of
computed words agree. Booleans are the one kind whose canonical form is not a narrowing.
-/

namespace TreeWasm

open Wasm

theorem toBitVec_toInt32 (v : Int64) : v.toInt32.toBitVec = v.toBitVec.setWidth 32 := by
  rw [Int64.toBitVec_toInt32]
  exact BitVec.signExtend_eq_setWidth_of_le _ (by decide)

theorem setWidth_signExtend {w u v : Nat} (x : BitVec w) (h : u ≤ v) :
    (x.signExtend v).setWidth u = x.signExtend u := by
  ext i hi
  rw [BitVec.getElem_setWidth, BitVec.getLsbD_signExtend, BitVec.getElem_signExtend]
  have hv : i < v := by omega
  simp only [hv, decide_true, Bool.true_and]
  split
  · next hw => rw [BitVec.getLsbD_eq_getElem hw]
  · rfl

theorem toNat_and_mask {w : Nat} (x : BitVec w) (n : Nat) (hn : n ≤ w) :
    (x &&& BitVec.ofNat w (2 ^ n - 1)).toNat = x.toNat % 2 ^ n := by
  have hpow : 2 ^ n ≤ 2 ^ w := Nat.pow_le_pow_right (by decide) hn
  have hpos := Nat.two_pow_pos n
  rw [BitVec.toNat_and, BitVec.toNat_ofNat, Nat.mod_eq_of_lt (by omega), Nat.and_two_pow_sub_one_eq_mod]

theorem toInt_and_mask (v : Int64) (n : Nat) (hn : n ≤ 32) :
    (v &&& Int64.ofNat (2 ^ n - 1)).toInt = v.toBitVec.toNat % 2 ^ n := by
  have hmask := toNat_and_mask v.toBitVec n (by omega)
  have hpow : 2 ^ n ≤ 2 ^ 32 := Nat.pow_le_pow_right (by decide) hn
  have hlt : v.toBitVec.toNat % 2 ^ n < 2 ^ n := Nat.mod_lt _ (Nat.two_pow_pos n)
  change (v.toBitVec &&& BitVec.ofNat 64 (2 ^ n - 1)).toInt = _
  rw [BitVec.toInt_eq_toNat_of_lt (by omega), hmask]
  rfl

theorem setWidth_signExtend_low {v : Int64} {n : Nat} (hn : n ≤ 32) :
    ((v.toBitVec.signExtend n).signExtend 64).signExtend 32 =
      (v.toInt32.toBitVec.setWidth n).signExtend 32 := by
  rw [BitVec.signExtend_eq_setWidth_of_le _ (by decide : 32 ≤ 64), setWidth_signExtend _ (by decide),
    BitVec.signExtend_eq_setWidth_of_le v.toBitVec (by omega : n ≤ 64), toBitVec_toInt32,
    BitVec.setWidth_setWidth_of_le _ hn]

/-- The low bits of an integer are those of its low word. -/
theorem toBitVec_and_mask (v : Int64) (n : Nat) (hn : n ≤ 32) :
    (v &&& Int64.ofNat (2 ^ n - 1)).toInt32.toBitVec = (v.toInt32.toBitVec.setWidth n).setWidth 32 := by
  apply BitVec.eq_of_toNat_eq
  have hmask := toNat_and_mask v.toBitVec n (by omega)
  simp only [toBitVec_toInt32, Int64.toBitVec_and, BitVec.toNat_setWidth]
  refine (congrArg (· % 2 ^ 32) hmask).trans ?_
  rw [Nat.mod_mod_of_dvd _ (Nat.pow_dvd_pow 2 hn)]

theorem toInt64_toInt32_of_bounds {v : Int64} (hlow : -2 ^ 31 ≤ v.toInt) (hhigh : v.toInt < 2 ^ 31) :
    v.toInt32.toInt64 = v := by
  apply Int64.toInt_inj.mp
  rw [Int32.toInt_toInt64, Int64.toInt_toInt32]
  exact Int.bmod_eq_of_le (by omega) (by omega)

theorem toInt64_and_mask (v : Int64) (n : Nat) (hn : n < 32) :
    (v &&& Int64.ofNat (2 ^ n - 1)).toInt32.toInt64 = v &&& Int64.ofNat (2 ^ n - 1) := by
  have hmask := toInt_and_mask v n (by omega)
  have hlt : v.toBitVec.toNat % 2 ^ n < 2 ^ n := Nat.mod_lt _ (Nat.two_pow_pos n)
  have hpow : 2 ^ n ≤ 2 ^ 31 := Nat.pow_le_pow_right (by decide) (by omega)
  norm_cast at hmask
  apply toInt64_toInt32_of_bounds <;> rw [hmask] <;> omega

namespace Wasm.Width

/-- The integer for which a word stands in a constant. -/
def toInt64 : (w : Width) → BitVec w.bits → Int64
  | w32, x => (Int32.ofBitVec x).toInt64
  | w64, x => Int64.ofBitVec x

/-- The low word of an integer. -/
def ofInt64 : (w : Width) → Int64 → BitVec w.bits
  | w32, v => v.toInt32.toBitVec
  | w64, v => v.toBitVec

variable {w : Width}

@[simp]
theorem ofInt64_toInt64 (x : BitVec w.bits) : w.ofInt64 (w.toInt64 x) = x := by
  cases w with
  | w32 => exact congrArg Int32.toBitVec (Int32.toInt32_toInt64 (Int32.ofBitVec x))
  | w64 => rfl

theorem ofInt64_neg (v : Int64) : w.ofInt64 (-v) = -w.ofInt64 v := by
  cases w with
  | w32 => exact congrArg Int32.toBitVec (Int64.toInt32_neg v)
  | w64 => rfl

theorem ofInt64_not (v : Int64) : w.ofInt64 (~~~v) = ~~~w.ofInt64 v := by
  cases w with
  | w32 => exact congrArg Int32.toBitVec (Int64.toInt32_not v)
  | w64 => rfl

theorem toInt64_eq_zero {x : BitVec w.bits} : w.toInt64 x = 0 ↔ x = 0 := by
  have hzero : w.toInt64 0 = 0 ∧ w.ofInt64 0 = 0 := by cases w <;> exact ⟨rfl, rfl⟩
  refine ⟨fun h => ?_, fun h => by rw [h, hzero.1]⟩
  rw [← ofInt64_toInt64 x, h, hzero.2]

theorem toInt64_eq_one {x : BitVec w.bits} (h : w.toInt64 x = 1) : x = 1 := by
  rw [← ofInt64_toInt64 x, h]
  cases w <;> rfl

end Wasm.Width

namespace Scalar

variable {kind : Scalar} {w : Width}

/-- A word narrowed to a kind of its slot; kinds of 64 bits fill theirs. -/
def fit (kind : Scalar) : (w : Width) → BitVec w.bits → BitVec w.bits
  | .w32, x => kind.narrowWord x
  | .w64, x => x

theorem wrap_long (hslot : kind.slot = .i64) {v : Int64} : kind.wrap v = v := by
  cases kind with
  | i64 | u64 => rfl
  | _ => cases hslot

/-- The canonical form of a constant is the narrowing of its low word. -/
theorem ofInt64_wrap (hslot : kind.slot = w.int) (hbool : kind ≠ bool) (v : Int64) :
    w.ofInt64 (kind.wrap v) = kind.fit w (w.ofInt64 v) := by
  cases w with
  | w64 => exact congrArg Int64.toBitVec (wrap_long hslot)
  | w32 =>
    cases kind with
    | bool => exact absurd rfl hbool
    | i64 | u64 | f32 | f64 => cases hslot
    | u8 => exact toBitVec_and_mask v 8 (by decide)
    | u16 => exact toBitVec_and_mask v 16 (by decide)
    | i8 | i16 => exact setWidth_signExtend_low (by decide)
    | i32 | u32 | pointer => exact congrArg Int32.toBitVec (Int32.toInt32_toInt64 v.toInt32)

/-- A canonical constant is made of its low word. -/
theorem toInt64_ofInt64_wrap (hslot : kind.slot = w.int) (v : Int64) :
    w.toInt64 (w.ofInt64 (kind.wrap v)) = kind.wrap v := by
  cases w with
  | w64 => rfl
  | w32 =>
    cases kind with
    | i64 | u64 | f32 | f64 => cases hslot
    | bool =>
      simp only [wrap]
      split <;> rfl
    | i8 =>
      have := v.toInt8.toInt_lt
      have := v.toInt8.le_toInt
      apply toInt64_toInt32_of_bounds <;> simp only [wrap, Int8.toInt_toInt64] <;> omega
    | i16 =>
      have := v.toInt16.toInt_lt
      have := v.toInt16.le_toInt
      apply toInt64_toInt32_of_bounds <;> simp only [wrap, Int16.toInt_toInt64] <;> omega
    | u8 => exact toInt64_and_mask v 8 (by decide)
    | u16 => exact toInt64_and_mask v 16 (by decide)
    | i32 | u32 | pointer => simp [wrap, Width.toInt64, Width.ofInt64]

theorem narrowWord_narrowWord {x : BitVec 32} : kind.narrowWord (kind.narrowWord x) = kind.narrowWord x := by
  cases kind with
  | u8 | u16 => simp [narrowWord]
  | i8 | i16 =>
    simp only [narrowWord]
    rw [setWidth_signExtend _ (by decide), BitVec.signExtend_eq]
  | _ => rfl

theorem isCanonical_word {x : BitVec w.bits} : kind.isCanonical (.word w x) ↔
    kind.slot = w.int ∧ kind.wrap (w.toInt64 x) = w.toInt64 x := by
  cases w <;> exact decide_eq_true_iff

/-- A word is canonical for a kind other than `bool` exactly if narrowing keeps it. -/
theorem isCanonical_iff_fit (hslot : kind.slot = w.int) (hbool : kind ≠ bool) (x : BitVec w.bits) :
    kind.isCanonical (.word w x) ↔ kind.fit w x = x := by
  have hwrap := ofInt64_wrap hslot hbool (w.toInt64 x)
  rw [Width.ofInt64_toInt64] at hwrap
  rw [isCanonical_word, ← hwrap]
  refine ⟨fun h => ?_, fun h => ⟨hslot, ?_⟩⟩
  · rw [h.2, Width.ofInt64_toInt64]
  · rw [← toInt64_ofInt64_wrap hslot, h]

theorem isCanonical_bool {x : BitVec 32} : bool.isCanonical (.i32 x) ↔ x = 0 ∨ x = 1 := by
  refine (isCanonical_word (w := .w32)).trans ⟨fun h => ?_, ?_⟩
  · have hword := h.2
    simp only [wrap] at hword
    split at hword
    next hzero => exact .inl (Width.toInt64_eq_zero.mp hzero)
    · exact .inr (Width.toInt64_eq_one hword.symm)
  · rintro (rfl | rfl) <;> exact ⟨rfl, rfl⟩

/-! ## Conversions -/

variable {source target : Scalar} {op : Numeric}

theorem slot_ne_invalid (kind : Scalar) : kind.slot ≠ .invalid := by
  cases kind <;> decide

/-- The instruction that a conversion to a kind of another slot takes before the result is narrowed. -/
def conversion? (source target : Scalar) : Option Numeric :=
  match source.slot, target.slot with
  | .i32, .i64 => some (.extend source.sign)
  | .i32, .f32 => some (.convert .w32 .w32 source.sign)
  | .i32, .f64 => some (.convert .w64 .w32 source.sign)
  | .i64, .i32 => some .wrap
  | .i64, .f32 => some (.convert .w32 .w64 source.sign)
  | .i64, .f64 => some (.convert .w64 .w64 source.sign)
  | .f32, .i32 => some (.truncate .w32 .w32 target.sign)
  | .f32, .i64 => some (.truncate .w64 .w32 target.sign)
  | .f32, .f64 => some .promote
  | .f64, .i32 => some (.truncate .w32 .w64 target.sign)
  | .f64, .i64 => some (.truncate .w64 .w64 target.sign)
  | .f64, .f32 => some .demote
  | _, _ => none

theorem convert_eq {floats : FloatUnit} {v : Value} (hbool : target ≠ bool) :
    source.convert floats target v = ((source.conversion? target).elim (.value v)
      (fun op => op.apply floats [v])).bind target.narrow := by
  have hwide (h : target.slot ≠ .i32) (x : Attempt Value) : x = x.bind target.narrow := by
    cases target <;> first | exact absurd rfl h | cases x <;> rfl
  simp only [convert, conversion?, if_neg hbool]
  cases hsource : source.slot <;> cases htarget : target.slot <;> first
    | rfl | exact absurd hsource source.slot_ne_invalid | exact hwide (by rw [htarget]; decide) _

theorem slot_eq_of_conversion? (h : source.conversion? target = none) : source.slot = target.slot := by
  have hsource := source.slot_ne_invalid
  have htarget := target.slot_ne_invalid
  unfold conversion? at h
  generalize source.slot = given, target.slot = wanted at h hsource htarget ⊢
  cases given <;> cases wanted <;> first | rfl | contradiction

theorem types_conversion? (h : source.conversion? target = some op) :
    op.params = [source.slot] ∧ op.result = target.slot := by
  unfold conversion? at h
  split at h <;> cases h <;> simp_all [Numeric.params, Numeric.result, Width.int, Width.float]

end Scalar

end TreeWasm
