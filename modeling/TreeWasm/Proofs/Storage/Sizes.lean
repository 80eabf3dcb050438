import TreeWasm.Layout.OfType
import TreeWasm.Proofs.Steps

/-! # Sizes without overflow

A layout notes its size as a 64-bit integer, a product and a sum of the sizes of its parts. Here the
size is counted without bound. As long as the count stays below `2 ^ 63` and no length is negative,
the noted size is the counted one.
-/

namespace TreeWasm.Layout

variable {a b size : Int64} {l : Layout} {placed : List (Field Layout)}
  {fields : List (String × Ty)} {before m n : Nat} {build : Ty → Except LayoutDefect Layout}
  {tag : TypeTag}

mutual

/-- The number of bytes that a value takes. -/
def bytes : Layout → Nat
  | void _ => 0
  | scalar _ kind => kind.size
  | struct _ union _ fields => if union then widest fields else total fields
  | array _ _ none _ => openArraySize
  | array _ elem (some count) _ => bytes elem * count.toInt.toNat

/-- The bytes of fields that follow one another. -/
def total : List (Field Layout) → Nat
  | [] => 0
  | ⟨_, layout, _, _⟩ :: rest => bytes layout + total rest

/-- The bytes of the largest field. -/
def widest : List (Field Layout) → Nat
  | [] => 0
  | ⟨_, layout, _, _⟩ :: rest => max (bytes layout) (widest rest)

end

mutual

/-- No array has a negative length. -/
def Counted : Layout → Prop
  | void _ | scalar _ _ => True
  | struct _ _ _ fields => AllCounted fields
  | array _ _ none _ => True
  | array _ elem (some count) _ => 0 ≤ count.toInt ∧ Counted elem

def AllCounted : List (Field Layout) → Prop
  | [] => True
  | ⟨_, layout, _, _⟩ :: rest => Counted layout ∧ AllCounted rest

end

/-- The noted size is the counted one, unless that is too large. -/
def Measured (l : Layout) : Prop := l.Counted → l.bytes < 2 ^ 63 → l.size.toInt = l.bytes

theorem toInt_add_of_lt (ha : a.toInt = m) (hb : b.toInt = n) (h : m + n < 2 ^ 63) :
    (a + b).toInt = (m + n : Nat) := by
  rw [Int64.toInt_add, ha, hb, Int.bmod_eq_of_le] <;> omega

theorem toInt_mul_of_lt (ha : a.toInt = m) (hb : b.toInt = n) (h : m * n < 2 ^ 63) :
    (a * b).toInt = (m * n : Nat) := by
  rw [Int64.toInt_mul, ha, hb, ← Int.natCast_mul, Int.bmod_eq_of_le] <;> omega

theorem measured_scalar {kind : Scalar} : Measured (.scalar tag kind) := by
  intro _ _
  cases kind <;> rfl

theorem measured_array {elem : Layout} {count : Int64} (h : elem.Measured) :
    Measured (.array tag elem (some count) (elem.size * count)) := by
  intro hcounted hbytes
  rw [Counted] at hcounted
  rw [bytes] at hbytes ⊢
  obtain ⟨hcount, helem⟩ := hcounted
  have hnat : count.toInt = (count.toInt.toNat : Nat) := by omega
  by_cases hzero : count.toInt.toNat = 0
  · -- no elements, so that the size of one does not matter
    have hcountZero : count = 0 := by
      apply Int64.toInt_inj.mp
      rw [hnat, hzero]
      rfl
    simp [size, hcountZero]
  · have hle : elem.bytes ≤ elem.bytes * count.toInt.toNat :=
      Nat.le_mul_of_pos_right _ (Nat.pos_of_ne_zero hzero)
    exact toInt_mul_of_lt (h helem (by omega)) hnat hbytes

/-- Fields that follow one another end where their bytes end. -/
theorem placeStruct_size (hbuild : ∀ t l, build t = .ok l → l.Measured) {offset : Int64}
    {slot : Nat} (h : placeStruct build offset slot fields = .ok (size, placed))
    (hcounted : AllCounted placed) (hoffset : offset.toInt = before)
    (hbytes : before + total placed < 2 ^ 63) : size.toInt = (before + total placed : Nat) := by
  induction fields generalizing offset slot before placed with
  | nil =>
    cases h
    exact hoffset
  | cons field rest ih =>
    obtain ⟨name, t⟩ := field
    rw [placeStruct] at h
    obtain ⟨l, hl, h⟩ := Except.exists_of_bind h
    obtain ⟨slots, -, h⟩ := Except.exists_of_bind h
    obtain ⟨⟨end', more⟩, hmore, h⟩ := Except.exists_of_bind h
    cases h
    rw [total] at hbytes ⊢
    rw [AllCounted] at hcounted
    have hfield := hbuild t l hl hcounted.1 (by omega)
    have hnext := toInt_add_of_lt hoffset hfield (by omega)
    have hend := ih hmore hcounted.2 hnext (by omega)
    rw [hend, Nat.add_assoc]

theorem toInt_max : (max a b).toInt = max a.toInt b.toInt := by
  change (if a ≤ b then b else a).toInt = max a.toInt b.toInt
  split
  next hle =>
    rw [Int64.le_iff_toInt_le] at hle
    omega
  next hlt =>
    rw [Int64.le_iff_toInt_le] at hlt
    omega

theorem placeUnion_size (hbuild : ∀ t l, build t = .ok l → l.Measured) {least : Int64}
    (h : placeUnion build least fields = .ok (size, placed)) (hcounted : AllCounted placed)
    (hleast : least.toInt = before) (hbytes : widest placed < 2 ^ 63) :
    size.toInt = (max before (widest placed) : Nat) := by
  induction fields generalizing least before placed with
  | nil =>
    cases h
    rw [widest, Nat.max_zero]
    exact hleast
  | cons field rest ih =>
    obtain ⟨name, t⟩ := field
    rw [placeUnion] at h
    obtain ⟨l, hl, h⟩ := Except.exists_of_bind h
    obtain ⟨⟨end', more⟩, hmore, h⟩ := Except.exists_of_bind h
    cases h
    rw [widest] at hbytes ⊢
    rw [AllCounted] at hcounted
    have hfield := hbuild t l hl hcounted.1 (by omega)
    have hnext : (max least l.size).toInt = (max before l.bytes : Nat) := by
      rw [toInt_max, hleast, hfield]
      omega
    rw [ih hmore hcounted.2 hnext (by omega), Nat.max_assoc]

theorem measured_ofTypeWith {aggregate : Nat → Except LayoutDefect Layout} {text : Ty → String}
    (haggregate : ∀ id l, aggregate id = .ok l → l.Measured) {t : Ty}
    (h : ofTypeWith aggregate text t = .ok l) : l.Measured := by
  fun_induction ofTypeWith aggregate text t generalizing l with
  | case2 elem ih => exact ih h
  | case3 | case4 =>
    cases h
    exact fun _ _ => rfl
  | case7 b tag kind hkind =>
    rw [hkind] at h
    cases h
    exact measured_scalar
  | case8 b tag hkind =>
    rw [hkind] at h
    cases h
  | case9 occurrence elem =>
    cases h
    exact measured_scalar
  | case10 occurrence length elem ih =>
    obtain ⟨inner, hinner, h⟩ := Except.exists_of_bind h
    cases length with
    | none =>
      cases h
      exact fun _ _ => rfl
    | some count =>
      cases h
      exact measured_array (ih hinner)
  | case12 id => exact haggregate id l h
  | _ => cases h

theorem measured_ofAggregate {table : TypeTable} {depth id : Nat}
    (h : ofAggregate table depth id = .ok l) : l.Measured := by
  induction depth generalizing id l with
  | zero => cases h
  | succ depth ih =>
    rw [ofAggregate] at h
    split at h
    · cases h
    next a ha =>
      have hbuild : ∀ t l, ofTypeWith (ofAggregate table depth) table.text t = .ok l → l.Measured :=
        fun t l hl => measured_ofTypeWith (fun id l hid => ih hid) hl
      have hzero : (0 : Int64).toInt = (0 : Nat) := rfl
      simp only at h
      split at h
      next hunion =>
        obtain ⟨⟨size, fields⟩, hplaced, h⟩ := Except.exists_of_bind h
        cases h
        intro hcounted hbytes
        rw [Counted] at hcounted
        rw [bytes, if_pos hunion] at hbytes ⊢
        have hend := placeUnion_size hbuild hplaced hcounted hzero hbytes
        rwa [Nat.zero_max] at hend
      next hstruct =>
        obtain ⟨⟨size, fields⟩, hplaced, h⟩ := Except.exists_of_bind h
        cases h
        intro hcounted hbytes
        rw [Counted] at hcounted
        rw [bytes, if_neg hstruct] at hbytes ⊢
        have hend := placeStruct_size hbuild hplaced hcounted hzero (by rwa [Nat.zero_add])
        rwa [Nat.zero_add] at hend

end TreeWasm.Layout
