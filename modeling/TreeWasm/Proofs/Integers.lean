import Mathlib.Algebra.Group.Int.Defs
import Mathlib.Algebra.Group.Nat.Defs
import TreeWasm.Command.Value

/-! # Integers of calls

The integers that are read are the literals with values in a range that depends on the sign. What is
written for an integer is one of its literals.
-/

namespace TreeWasm.Number

/-- The value of a literal whose digits so far have the value `v`, the last of them followed by an
underscore if `spaced`. A digit has at most one underscore before it. -/
def continued? (base : Nat) (spaced : Bool) (v : Nat) : List Char → Option Nat
  | [] => if spaced then none else some v
  | c :: rest =>
    if c = '_' then if spaced then none else continued? base true v rest
    else ((digitValue? c).filter (· < base)).bind (fun d => continued? base false (v * base + d) rest)

/-- The value of a literal without a sign; it begins with a digit, which may be part of the base. -/
def unsigned? (text : List Char) : Option Nat :=
  if text.head? = none ∨ text.head? = some '_' then none
  else continued? (splitBase text).1 false 0 (splitBase text).2

/-- The value of a literal. -/
def literal? (text : List Char) : Option Int :=
  (unsigned? (dropSign text)).map (fun (n : Nat) => if text.head? = some '-' then -(n : Int) else n)

variable {base greatest bits half d n v w : Nat} {c : Char} {text rest : List Char} {hex spaced : Bool}
  {before : Before} {x : Int}

theorem le_of_continued? (hbase : 0 < base) (h : continued? base spaced v rest = some w) : v ≤ w := by
  induction rest generalizing spaced v with
  | nil => grind [continued?]
  | cons c rest ih =>
    rw [continued?] at h
    split at h
    · grind
    · obtain ⟨d, -, hrest⟩ := Option.bind_eq_some_iff.mp h
      exact Nat.le_trans (Nat.le_add_right_of_le (Nat.le_mul_of_pos_right v hbase)) (ih hrest)

theorem readDigits_cons_iff (hc : c ≠ '_') :
    readDigits base greatest v (c :: rest) = .ok w ↔ ∃ d, (digitValue? c).filter (· < base) = some d ∧
      v * base + d ≤ greatest ∧ readDigits base greatest (v * base + d) rest = .ok w := by
  rw [readDigits.eq_3 _ _ _ _ _ hc]
  cases digitValue? c with
  | none => simp
  | some d => grind

/-- The bases have no digits but those that an underscore may stand between. -/
theorem separates_cons (hbase : base ≤ 10 ∨ base = 16) (hc : (digitValue? c).filter (· < base) = some d) :
    separates (base == 16) before (c :: rest) = separates (base == 16) .digit rest := by
  have hord {x y : Char} : x ≤ y ↔ x.toNat ≤ y.toNat := UInt32.le_iff_toNat_le
  rw [separates, if_pos]
  simp only [digitValue?, isDigit, isHexLetter, hord, Char.reduceToNat, Bool.and_eq_true, Bool.or_eq_true,
    decide_eq_true_eq, beq_iff_eq, Option.filter_eq_some_iff] at hc ⊢
  grind

theorem separates_underscore : separates hex before ('_' :: rest) =
    (before = .digit && separates hex .underscore rest) := by
  cases hex <;> rfl

theorem readDigits_iff (hbase : 0 < base ∧ (base ≤ 10 ∨ base = 16)) (hv : v ≤ greatest) (spaced : Bool) :
    readDigits base greatest v rest = .ok w ∧
      separates (base == 16) (if spaced then .underscore else .digit) rest = true ↔
    continued? base spaced v rest = some w ∧ w ≤ greatest := by
  induction rest generalizing v spaced with
  | nil => grind [readDigits, separates, continued?]
  | cons c rest ih =>
    by_cases hc : c = '_'
    · subst hc
      cases spaced with
      | true => simp [separates_underscore, continued?]
      | false => simpa [separates_underscore, continued?, readDigits] using ih hv true
    · rw [readDigits_cons_iff hc, continued?, if_neg hc, Option.bind_eq_some_iff]
      constructor
      · rintro ⟨⟨d, hd, hle, hread⟩, hseparates⟩
        rw [separates_cons hbase.2 hd] at hseparates
        obtain ⟨hrest, hw⟩ := (ih hle false).mp ⟨hread, hseparates⟩
        exact ⟨⟨d, hd, hrest⟩, hw⟩
      · rintro ⟨⟨d, hd, hrest⟩, hw⟩
        have hle := Nat.le_trans (le_of_continued? hbase.1 hrest) hw
        obtain ⟨hread, hseparates⟩ := (ih hle false).mpr ⟨hrest, hw⟩
        exact ⟨⟨d, hd, hle, hread⟩, (separates_cons hbase.2 hd).trans hseparates⟩

theorem separates_of_not_mem (hnone : '_' ∉ rest) (hbefore : before ≠ .underscore) :
    separates hex before rest = true := by
  induction rest generalizing before with
  | nil => simpa [separates]
  | cons c rest ih => grind [separates]

theorem base_of_letter (h : baseOfLetter? c = some base) :
    (0 < base ∧ (base ≤ 10 ∨ base = 16)) ∧ (digitValue? c).filter (· < 8) = none := by
  unfold baseOfLetter? at h
  split at h <;> cases h <;> decide

theorem base_of_splitBase (text : List Char) :
    0 < (splitBase text).1 ∧ ((splitBase text).1 ≤ 10 ∨ (splitBase text).1 = 16) := by
  fun_cases splitBase text with
  | case1 _ _ _ base hletter => exact (base_of_letter hletter).1
  | case2 | case3 | case4 => simp

theorem splitBase_of_ne (hc : c ≠ '0') : splitBase (c :: rest) = (10, c :: rest) := by
  simp [splitBase, hc]

/-- The underscores of a literal are those between its digits. -/
theorem underscoresSeparate_eq (hc : c ≠ '_')
    (hread : readDigits (splitBase (c :: rest)).1 greatest 0 (splitBase (c :: rest)).2 = .ok n) :
    underscoresSeparate (c :: rest) =
      separates ((splitBase (c :: rest)).1 == 16) .digit (splitBase (c :: rest)).2 := by
  by_cases hzero : c = '0'
  · subst hzero
    rcases rest with _ | ⟨letter, more⟩
    · rfl
    cases hletter : baseOfLetter? letter with
    | none => cases more <;> simp [splitBase, underscoresSeparate, dropSign, hletter, separates, isDigit]
    | some base =>
      cases more with
      | nil =>
        obtain ⟨d, hd, -⟩ := (readDigits_cons_iff (by rintro rfl; cases hletter)).mp hread
        exact absurd ((base_of_letter hletter).2.symm.trans hd) (by simp)
      | cons digit more => simp [splitBase, underscoresSeparate, dropSign, hletter]
  · rw [splitBase_of_ne hzero] at hread ⊢
    obtain ⟨d, hd, -⟩ := (readDigits_cons_iff hc).mp hread
    have hdrop : dropSign (c :: rest) = c :: rest := by
      rw [dropSign] <;> rintro _ ⟨⟩ <;> cases hd
    simp [underscoresSeparate, hdrop, hzero, separates, hc]

/-- The literals without a sign that are read are those of numbers that fit. -/
theorem readUnsigned_eq_ok_iff : readUnsigned bits text = .ok n ↔ unsigned? text = some n ∧ n < 2 ^ bits := by
  cases text with
  | nil => simp [readUnsigned, unsigned?]
  | cons c rest =>
    have hpow : Nat.pow 2 bits = 2 ^ bits := rfl
    have hread : readUnsigned bits (c :: rest) = .ok n ↔
        readDigits (splitBase (c :: rest)).1 (2 ^ bits - 1) 0 (splitBase (c :: rest)).2 = .ok n ∧
          ('_' ∈ (splitBase (c :: rest)).2 → underscoresSeparate (c :: rest) = true) := by
      simp only [readUnsigned, hpow, List.isEmpty_cons, Bool.false_eq_true, if_false]
      cases readDigits (splitBase (c :: rest)).1 (2 ^ bits - 1) 0 (splitBase (c :: rest)).2 with
      | error fault => simp
      | ok value => grind
    have hbase := base_of_splitBase (c :: rest)
    rw [hread, unsigned?]
    by_cases hc : c = '_'
    · subst hc
      simp [splitBase, underscoresSeparate, dropSign, separates_underscore]
    · rw [if_neg (by simpa using hc), ← Nat.le_sub_one_iff_lt (Nat.two_pow_pos bits),
        ← readDigits_iff hbase (Nat.zero_le _)]
      refine and_congr_right (fun hdigits => ?_)
      rw [underscoresSeparate_eq hc hdigits]
      by_cases hmem : '_' ∈ (splitBase (c :: rest)).2
      · simp [hmem]
      · simp [hmem, separates_of_not_mem]

/-- The literals that are read with a sign are those of numbers on either side of zero. -/
theorem readSigned_eq_ok_iff : readSigned (half + 1) text = .ok x ↔
    literal? text = some x ∧ -(2 ^ half : Nat) ≤ x ∧ x < (2 ^ half : Nat) := by
  have hpow : 2 ^ (half + 1) = 2 * 2 ^ half := Nat.pow_succ'
  have hhalf : Nat.pow 2 (half + 1 - 1) = 2 ^ half := rfl
  have hpos : 0 < 2 ^ half := Nat.two_pow_pos half
  have hunsigned (n : Nat) : readUnsigned (half + 1) (dropSign text) = .ok n ↔ _ := readUnsigned_eq_ok_iff
  simp only [readSigned, hhalf, literal?, Option.map_eq_some_iff]
  cases hread : readUnsigned (half + 1) (dropSign text) with
  | error fault => grind
  | ok n => grind

theorem dropSign_eq_self (hplus : text.head? ≠ some '+') (hminus : text.head? ≠ some '-') :
    dropSign text = text := by
  unfold dropSign
  split <;> simp_all

theorem literal?_of_unsigned? (h : unsigned? text = some n) :
    literal? text = some (n : Int) ∧ text.head? ≠ some '+' := by
  have hhead : text.head? ≠ some '+' ∧ text.head? ≠ some '-' := by
    cases text with
    | nil => simp
    | cons c rest => constructor <;> rintro ⟨⟩ <;> cases h
  rw [literal?, dropSign_eq_self hhead.1 hhead.2, h, Option.map_some, if_neg hhead.2]
  exact ⟨rfl, hhead.1⟩

theorem unsigned?_of_literal? (h : literal? text = some x) (hx : 0 < x) (hplus : text.head? ≠ some '+') :
    unsigned? text = some x.toNat := by
  obtain ⟨n, hn, rfl⟩ := Option.map_eq_some_iff.mp h
  by_cases hminus : text.head? = some '-'
  · rw [if_pos hminus] at hx
    omega
  · rw [dropSign_eq_self hplus hminus] at hn
    simpa [hminus] using hn

/-! ## Writing -/

theorem continued?_of_isDigit {digits : List Char} (h : ∀ c ∈ digits, c.isDigit) :
    continued? 10 false v digits = some (Nat.ofDigitChars 10 digits v) := by
  induction digits generalizing v with
  | nil => rfl
  | cons c digits ih =>
    rw [List.forall_mem_cons] at h
    have hc := (Char.isDigit_iff_toNat.mp h.1).2
    have hvalue : (digitValue? c).filter (· < 10) = some (c.toNat - 48) := by
      rw [digitValue?, if_pos (show isDigit c = true from h.1), Option.filter_some, if_pos]
      simp only [Char.reduceToNat] at hc
      exact decide_eq_true (by omega)
    have hne : c ≠ '_' := by
      rintro rfl
      cases h.1
    rw [continued?, if_neg hne, hvalue, Option.bind_some, ih h.2, Nat.ofDigitChars_cons, Nat.mul_comm]
    rfl

theorem head?_toDigits (hn : 0 < n) : (Nat.toDigits 10 n).head? ≠ some '0' := by
  induction n using Nat.strongRecOn with
  | _ n ih =>
    by_cases hsmall : n < 10
    · rw [Nat.toDigits_of_lt_base hsmall]
      simpa using Nat.ne_of_gt hn
    · rw [Nat.toDigits_of_base_le (by decide) (Nat.not_lt.mp hsmall), List.head?_append,
        Option.or_of_isSome (by simp [Nat.toDigits_ne_nil])]
      exact ih (n / 10) (by omega) (by omega)

theorem unsigned?_toDigits (n : Nat) : unsigned? (Nat.toDigits 10 n) = some n := by
  rcases Nat.eq_zero_or_pos n with rfl | hn
  · decide
  have hdigits : continued? 10 false 0 (Nat.toDigits 10 n) = some n := by
    rw [continued?_of_isDigit (fun c => Nat.isDigit_of_mem_toDigits (by decide) (by decide)),
      Nat.ofDigitChars_ten_toDigits]
  have hzero := head?_toDigits hn
  have hunderscore : '_' ∉ Nat.toDigits 10 n := Nat.underscore_not_in_toDigits
  cases htext : Nat.toDigits 10 n with
  | nil => exact absurd htext Nat.toDigits_ne_nil
  | cons c rest =>
    rw [htext] at hdigits hzero hunderscore
    rw [unsigned?, splitBase_of_ne (fun h => hzero (h ▸ rfl)), hdigits, if_neg]
    grind

theorem literal?_toString (x : Int) : literal? (toString x).toList = some x := by
  cases x with
  | ofNat n =>
    have h := unsigned?_toDigits n
    rw [← Nat.toList_repr] at h
    exact (literal?_of_unsigned? h).1
  | negSucc n =>
    have h := unsigned?_toDigits (n + 1)
    rw [← Nat.toList_repr] at h
    have hlist : (toString (Int.negSucc n)).toList = '-' :: (Nat.repr (n + 1)).toList :=
      String.toList_append
    rw [hlist, literal?, dropSign, h]
    rfl

end TreeWasm.Number

namespace TreeWasm.ValueKind

open Number

variable {half : Nat} {text : String} {w : UInt64}

/-- A text stands for an integer of one bit more than `half`: with or without its sign it fits, except
that a plus is for those that fit with the sign. The value is the integer modulo its range. -/
def StandsFor (half : Nat) (text : String) (w : UInt64) : Prop :=
  ∃ x : Int, literal? text.toList = some x ∧ -2 ^ half ≤ x ∧ x < 2 ^ (half + 1) ∧
    (text.toList.head? = some '+' → x < 2 ^ half) ∧ (w.toNat : Int) = x % 2 ^ (half + 1)

theorem readInteger_eq_ok_iff (hhalf : half < 64) :
    readInteger (half + 1) text = .ok w ↔ StandsFor half text w := by
  have hpow : (2 : Int) ^ (half + 1) = 2 * 2 ^ half := by rw [Int.pow_succ, Int.mul_comm]
  have hcast (k : Nat) : ((2 ^ k : Nat) : Int) = 2 ^ k := by simp
  have hpos : (0 : Int) < 2 ^ half := by rw [← hcast]; exact Int.natCast_pos.mpr (Nat.two_pow_pos half)
  have hfits : (2 : Int) ^ (half + 1) ≤ 2 ^ 64 := by
    rw [← hcast, ← hcast]
    exact Int.ofNat_le.mpr (Nat.pow_le_pow_right (by decide) hhalf)
  have hvalue (x : Int) : UInt64.ofNat (x % 2 ^ (half + 1)).toNat = w ↔ (w.toNat : Int) = x % 2 ^ (half + 1) := by
    have hnonneg := Int.emod_nonneg x (b := 2 ^ (half + 1)) (by omega)
    have hlt := Int.emod_lt_of_pos x (b := 2 ^ (half + 1)) (by omega)
    rw [← UInt64.toNat_inj, UInt64.toNat_ofNat_of_lt' (by simp only [UInt64.size]; omega)]
    omega
  have hsigned (x : Int) : readSigned (half + 1) text.toList = .ok x ↔ _ := readSigned_eq_ok_iff
  have hunsigned (n : Nat) : readUnsigned (half + 1) text.toList = .ok n ↔ _ := readUnsigned_eq_ok_iff
  simp only [hcast] at hsigned
  simp only [← Int.ofNat_lt, hcast] at hunsigned
  rw [readInteger, StandsFor]
  cases hs : readSigned (half + 1) text.toList with
  | ok y =>
    obtain ⟨hy, hlow, hhigh⟩ := (hsigned y).mp hs
    simp only [hy, Option.some.injEq, exists_eq_left', Except.ok.injEq, ← hvalue]
    have : y < 2 ^ (half + 1) := by omega
    simp [hlow, hhigh, this]
  | error why =>
    cases hu : readUnsigned (half + 1) text.toList with
    | ok n =>
      obtain ⟨hn, hlt⟩ := (hunsigned n).mp hu
      obtain ⟨hliteral, hplus⟩ := literal?_of_unsigned? hn
      have hmod : (n : Int) % 2 ^ (half + 1) = n := Int.emod_eq_of_lt (Int.natCast_nonneg n) hlt
      have hw := hvalue n
      rw [hmod, Int.toNat_natCast] at hw
      have : -2 ^ half ≤ (n : Int) := by omega
      simp [hliteral, hplus, hmod, hw, this, hlt]
    | error fault =>
      refine iff_of_false (by simp) ?_
      rintro ⟨x, hx, hlow, hhigh, hplus, -⟩
      have hlarge : ¬ x < 2 ^ half := fun hsmall => by
        cases hs.symm.trans ((hsigned x).mpr ⟨hx, hlow, hsmall⟩)
      have hn := unsigned?_of_literal? hx (by omega) (fun h => hlarge (hplus h))
      cases hu.symm.trans ((hunsigned _).mpr ⟨hn, by omega⟩)

theorem standsFor_toString {x : Int} (hlow : -2 ^ half ≤ x) (hhigh : x < 2 ^ half)
    (hw : (w.toNat : Int) = x % 2 ^ (half + 1)) : StandsFor half (toString x) w :=
  ⟨x, literal?_toString x, hlow, by rw [Int.pow_succ]; omega, fun _ => hhigh, hw⟩

theorem toNat_eq_toInt_emod {k : Nat} (b : BitVec k) : (b.toNat : Int) = b.toInt % 2 ^ k := by
  have hcast : ((2 ^ k : Nat) : Int) = 2 ^ k := by simp
  rw [BitVec.toInt_eq_toNat_bmod, ← hcast, Int.bmod_emod,
    Int.emod_eq_of_lt (Int.natCast_nonneg _) (Int.ofNat_lt.mpr b.isLt)]

/-- What is written for an integer is read as it, and a text is read exactly if it stands for one. -/
theorem read_render_integers :
    (∀ v : UInt32, read .i32 (render .i32 v.toUInt64) = .ok v.toUInt64) ∧
    (∀ v : UInt64, read .i64 (render .i64 v) = .ok v) ∧
    ∀ text w, (read .i32 text = .ok w ↔ StandsFor 31 text w) ∧
      (read .i64 text = .ok w ↔ StandsFor 63 text w) := by
  refine ⟨fun v => ?_, fun v => ?_, fun text w => ⟨readInteger_eq_ok_iff (by decide),
    readInteger_eq_ok_iff (by decide)⟩⟩
  · refine (readInteger_eq_ok_iff (by decide)).mpr (standsFor_toString ?_ ?_ ?_)
    · exact v.toUInt64.toUInt32.toInt32.le_toInt
    · exact v.toUInt64.toUInt32.toInt32.toInt_lt
    · rw [UInt32.toUInt32_toUInt64, UInt32.toNat_toUInt64]
      exact toNat_eq_toInt_emod v.toBitVec
  · refine (readInteger_eq_ok_iff (by decide)).mpr (standsFor_toString ?_ ?_ ?_)
    · exact v.toInt64.le_toInt
    · exact v.toInt64.toInt_lt
    · exact toNat_eq_toInt_emod v.toBitVec

end TreeWasm.ValueKind
