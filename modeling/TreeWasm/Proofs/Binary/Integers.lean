import TreeWasm.Proofs.Binary.Decoder
import TreeWasm.Proofs.Steps

/-! # Variable-length integers

An integer is read back from its encoding, whatever follows, and no bytes that are read as the same
integer are fewer: a number of bytes only reaches so far, and every integer in its reach is encoded in
as many bytes.
-/

namespace TreeWasm.Wasm.Leb128

variable {field bytes rest : List UInt8} {limit n k used : Nat} {v : Int}

/-- The bytes of one integer: all but the last have the high bit. -/
def Closed : List UInt8 → Prop
  | [] => False
  | b :: rest => if b < 128 then rest = [] else Closed rest

/-- The number that groups of seven bits stand for, lowest first. -/
def value : List UInt8 → Nat
  | [] => 0
  | b :: rest => b.toNat % 128 + 128 * value rest

/-- Reads a signed integer of any length; bit 6 of the last byte is the sign. -/
def readSigned : List UInt8 → Option (Int × List UInt8)
  | [] => none
  | b :: rest =>
    if b < 128 then some (if b < 64 then b.toNat else b.toNat - 128, rest)
    else (readSigned rest).map (fun (high, rest) => (b.toNat - 128 + 128 * high, rest))

theorem not_toUInt8_lt (h : n < 128) : ¬ (n + 128).toUInt8 < 128 := by
  rw [Decoder.toUInt8_lt_iff (by omega)]
  exact Nat.not_lt.mpr (Nat.le_add_left 128 n)

/-! ## Unsigned integers -/

theorem readGroups_append (h : Closed field) (hlimit : field.length ≤ limit) :
    readGroups limit (field ++ rest) = .ok (value field, field.length) := by
  induction field generalizing limit with
  | nil => cases h
  | cons b field ih =>
    obtain ⟨limit, rfl⟩ := Nat.exists_eq_succ_of_ne_zero (Nat.ne_zero_of_lt hlimit)
    rw [Closed] at h
    split at h
    next hlast =>
      subst h
      have hb : b.toNat < 128 := UInt8.lt_iff_toNat_lt.mp hlast
      simp [readGroups, value, hlast, Nat.mod_eq_of_lt hb]
    next hmore =>
      simp [readGroups, value, hmore, ih h (Nat.le_of_succ_le_succ hlimit)]

theorem closed_of_readGroups (h : readGroups limit bytes = .ok (n, used)) :
    ∃ field rest, bytes = field ++ rest ∧ Closed field ∧ field.length ≤ limit ∧ value field = n ∧
      field.length = used := by
  fun_induction readGroups limit bytes generalizing n used with
  | case1 | case2 => cases h
  | case3 limit b rest hlast =>
    cases h
    have hb : b.toNat < 128 := UInt8.lt_iff_toNat_lt.mp hlast
    exact ⟨[b], rest, rfl, by simp [Closed, hlast], Nat.succ_pos limit,
      by simp [value, Nat.mod_eq_of_lt hb], rfl⟩
  | case4 limit b rest hmore high count hrest ih =>
    cases h
    obtain ⟨field, rest, rfl, hclosed, hle, rfl, rfl⟩ := ih hrest
    exact ⟨b :: field, rest, rfl, by simpa [Closed, hmore] using hclosed, Nat.succ_le_succ hle, rfl, rfl⟩
  | case5 limit b rest hmore fault hrest ih => cases h

theorem read_append (h : Closed field) (hlen : field.length ≤ 5) :
    read (field ++ rest) = .ok (value field % 2 ^ 32, field.length) := by
  rw [read, readGroups_append h hlen]
  rfl

theorem closed_of_read (h : read bytes = .ok (n, used)) :
    ∃ field rest, bytes = field ++ rest ∧ Closed field ∧ field.length ≤ 5 ∧
      value field % 2 ^ 32 = n ∧ field.length = used := by
  obtain ⟨groups, hgroups, ⟨⟩⟩ := Except.exists_of_bind h
  obtain ⟨field, rest, hbytes, hclosed, hlen, hvalue, hused⟩ := closed_of_readGroups hgroups
  exact ⟨field, rest, hbytes, hclosed, hlen, congrArg (· % 2 ^ 32) hvalue, hused⟩

theorem value_lt (bytes : List UInt8) : value bytes < 128 ^ bytes.length := by
  induction bytes with
  | nil => exact Nat.one_pos
  | cons b bytes ih =>
    rw [value, List.length_cons, Nat.pow_succ]
    omega

theorem closed_unsigned : Closed (unsigned n) := by
  fun_induction unsigned n with
  | case1 n hsmall => simp [Closed, Decoder.toUInt8_lt_iff (show n < 256 by omega), hsmall]
  | case2 n hlarge ih =>
    rw [Closed, if_neg (not_toUInt8_lt (Nat.mod_lt n (by decide)))]
    exact ih

theorem value_unsigned : value (unsigned n) = n := by
  fun_induction unsigned n with
  | case1 n hsmall =>
    rw [value, value, Decoder.toNat_toUInt8 (by omega)]
    omega
  | case2 n hlarge ih =>
    rw [value, ih, Decoder.toNat_toUInt8 (by omega)]
    omega

theorem length_unsigned_le (h : n < 128 ^ k) (hk : 0 < k) : (unsigned n).length ≤ k := by
  induction k generalizing n with
  | zero => cases hk
  | succ k ih =>
    rw [unsigned]
    split
    · exact hk
    next hlarge =>
      rw [Nat.pow_succ] at h
      have hk : 0 < k := by
        apply Nat.pos_of_ne_zero
        rintro rfl
        exact hlarge (by simpa using h)
      exact Nat.succ_le_succ (ih (Nat.div_lt_of_lt_mul (by omega)) hk)

/-! ## Signed integers -/

theorem readSigned_signed : readSigned (signed v ++ rest) = some (v, rest) := by
  fun_induction signed v with
  | case1 v low high hdone =>
    have hlow : low < 128 := by omega
    have hlt := Decoder.toUInt8_lt_iff (show low < 256 by omega)
    rw [List.singleton_append, readSigned, if_pos ((hlt 128).mpr hlow), Decoder.toNat_toUInt8 (by omega)]
    simp only [hlt, UInt8.reduceToNat, Option.some.injEq, Prod.mk.injEq, and_true]
    split <;> omega
  | case2 v low high hopen ih =>
    have hlow : low < 128 := by omega
    rw [List.cons_append, readSigned, if_neg (not_toUInt8_lt hlow), ih, Decoder.toNat_toUInt8 (by omega)]
    simp only [Option.map_some, Option.some.injEq, Prod.mk.injEq, and_true]
    omega

/-- How far a signed integer of some bytes reaches. -/
theorem bounds_of_readSigned (h : readSigned bytes = some (v, rest)) :
    ∃ k, bytes.length = k + 1 + rest.length ∧ -(64 * 128 ^ k) ≤ v ∧ v < 64 * 128 ^ k := by
  induction bytes generalizing v with
  | nil => cases h
  | cons b bytes ih =>
    have hb := b.toNat_lt
    rw [readSigned] at h
    split at h
    next hlast =>
      cases h
      have hb : b.toNat < 128 := UInt8.lt_iff_toNat_lt.mp hlast
      refine ⟨0, by simp [Nat.add_comm], ?_⟩
      simp only [UInt8.lt_iff_toNat_lt, UInt8.reduceToNat]
      split <;> omega
    next hmore =>
      have hb : ¬ b.toNat < 128 := fun hlt => hmore (UInt8.lt_iff_toNat_lt.mpr hlt)
      obtain ⟨⟨high, rest⟩, hrest, ⟨⟩⟩ := Option.map_eq_some_iff.mp h
      obtain ⟨k, hk, hmin, hmax⟩ := ih hrest
      refine ⟨k + 1, by rw [List.length_cons]; omega, ?_⟩
      rw [Int.pow_succ]
      omega

theorem length_signed_le (hmin : -(64 * 128 ^ k) ≤ v) (hmax : v < 64 * 128 ^ k) :
    (signed v).length ≤ k + 1 := by
  induction k generalizing v with
  | zero =>
    rw [signed, if_pos (by omega)]
    exact Nat.le_refl 1
  | succ k ih =>
    rw [signed]
    split
    · exact Nat.succ_pos _
    · rw [Int.pow_succ] at hmin hmax
      exact Nat.succ_le_succ (ih (by omega) (by omega))

/-- Integers are read back from their encodings, which are as short as any that are read as them. -/
theorem encodings_exact (rest : List UInt8) :
    (∀ n : UInt32, read (unsigned n.toNat ++ rest) = .ok (n.toNat, (unsigned n.toNat).length) ∧
      1 ≤ (unsigned n.toNat).length ∧ (unsigned n.toNat).length ≤ 5 ∧
      ∀ bytes used, read bytes = .ok (n.toNat, used) → (unsigned n.toNat).length ≤ used) ∧
    ∀ v : Int64, readSigned (signed v.toInt ++ rest) = some (v.toInt, rest) ∧
      (signed v.toInt).length ≤ 10 ∧
      (-2 ^ 31 ≤ v.toInt → v.toInt < 2 ^ 31 → (signed v.toInt).length ≤ 5) ∧
      ∀ bytes left, readSigned bytes = some (v.toInt, left) →
        (signed v.toInt).length + left.length ≤ bytes.length := by
  refine ⟨fun n => ?_, fun v => ?_⟩
  · have hn : n.toNat < 2 ^ 32 := n.toNat_lt
    have hle : (unsigned n.toNat).length ≤ 5 := length_unsigned_le (by omega) (by decide)
    refine ⟨?_, List.length_pos_iff.mpr Decoder.unsigned_ne_nil, hle, fun bytes used h => ?_⟩
    · rw [read_append closed_unsigned hle, value_unsigned, Nat.mod_eq_of_lt hn]
    · obtain ⟨field, left, -, hclosed, -, hvalue, rfl⟩ := closed_of_read h
      have hreach := value_lt field
      refine length_unsigned_le (by omega) (List.length_pos_iff.mpr ?_)
      rintro rfl
      exact hclosed
  · have hmin := v.le_toInt
    have hmax := v.toInt_lt
    refine ⟨readSigned_signed, length_signed_le (by omega) (by omega), fun hmin hmax =>
      length_signed_le (by omega) (by omega), fun bytes left h => ?_⟩
    obtain ⟨k, hk, hmin, hmax⟩ := bounds_of_readSigned h
    have := length_signed_le hmin hmax
    omega

end TreeWasm.Wasm.Leb128
