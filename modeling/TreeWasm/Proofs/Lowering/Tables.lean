import Mathlib.Algebra.Group.Int.Defs
import Mathlib.Algebra.Group.Nat.Defs
import TreeWasm.Lowering.Switch

/-! # Tables of switches

Whether a switch becomes a table is decided in 64 bits, where the span of values far apart wraps
around. The decision is still the one of exact arithmetic, and every value has its place in the table.
-/

namespace TreeWasm.Switch

variable {values : List Int64} {lo hi v : Int64}

theorem toInt_foldl_widen (values : List Int64) (lo hi : Int64) :
    let range := values.foldl
      (fun (lo, hi) v => (if v < lo then v else lo, if hi < v then v else hi)) (lo, hi)
    range.1.toInt = (values.map Int64.toInt).foldl min lo.toInt ∧
      range.2.toInt = (values.map Int64.toInt).foldl max hi.toInt := by
  induction values generalizing lo hi with
  | nil => exact ⟨rfl, rfl⟩
  | cons v values ih =>
    have hlo : (if v < lo then v else lo).toInt = min lo.toInt v.toInt := by
      grind [Int64.lt_iff_toInt_lt]
    have hhi : (if hi < v then v else hi).toInt = max hi.toInt v.toInt := by
      grind [Int64.lt_iff_toInt_lt]
    simp only [List.map_cons, List.foldl_cons, ← hlo, ← hhi]
    exact ih _ _

theorem range?_eq_some_iff :
    range? values = some (lo, hi) ↔ (values.map Int64.toInt).min? = some lo.toInt ∧
      (values.map Int64.toInt).max? = some hi.toInt := by
  cases values with
  | nil => simp [range?]
  | cons v values =>
    obtain ⟨hlo, hhi⟩ := toInt_foldl_widen values v v
    rw [range?, List.map_cons, List.min?_cons', List.max?_cons', ← hlo, ← hhi]
    simp only [Option.some.injEq, Prod.ext_iff, Int64.toInt_inj]

/-- A span of at most `2 ^ 63 - 1` is computed as it is; a wider one shows as one that is not positive. -/
theorem toInt_span (h : lo.toInt ≤ hi.toInt) :
    (hi - lo + 1).toInt = hi.toInt - lo.toInt + 1 ∧ 0 < (hi - lo + 1).toInt ∨
      (hi - lo + 1).toInt ≤ 0 ∧ 2 ^ 63 ≤ hi.toInt - lo.toInt + 1 := by
  have hlo := lo.le_toInt
  have hhi := hi.toInt_lt
  rw [Int64.toInt_add, Int64.toInt_sub, Int.bmod_add_bmod, Int64.toInt_one, Int.bmod_eq_emod]
  split <;> omega

theorem length_tableTargets {fallback : Nat} {cases : List (List Int64 × Nat)} :
    (tableTargets lo hi fallback cases).length = (hi - lo + 1).toInt.toNat := by
  -- Neither the fold over the cases nor the one over the values of a case changes the length.
  refine List.foldlRecOn (motive := (List.length · = _)) cases _ List.length_replicate ?_
  intro targets hlen entry _
  refine List.foldlRecOn (motive := (List.length · = _)) entry.1 _ hlen ?_
  intro targets hlen v _
  rw [List.length_set, hlen]

theorem le_and_le_of_range? (h : range? values = some (lo, hi)) (hv : v ∈ values) :
    lo.toInt ≤ v.toInt ∧ v.toInt ≤ hi.toInt := by
  obtain ⟨hlo, hhi⟩ := range?_eq_some_iff.mp h
  have hv : v.toInt ∈ values.map Int64.toInt := List.mem_map_of_mem hv
  exact ⟨(List.min?_eq_some_iff.mp hlo).2 _ hv, (List.max?_eq_some_iff.mp hhi).2 _ hv⟩

theorem dense?_eq_some_iff (hcount : values.length < 2 ^ 61) :
    dense? values = some (lo, hi) ↔ range? values = some (lo, hi) ∧
      hi.toInt - lo.toInt + 1 ≤ 256 ∧ hi.toInt - lo.toInt + 1 ≤ 3 * values.length := by
  have hlimit : (sparseness * Int64.ofNat values.length).toInt = 3 * values.length := by
    rw [Int64.toInt_mul, Int64.toInt_ofNat_of_lt (by omega), show sparseness.toInt = 3 from rfl,
      Int.bmod_eq_of_le (by omega) (by omega)]
  rw [dense?]
  split
  next hnone => simp [hnone]
  next least greatest hrange =>
    have hle : least.toInt ≤ greatest.toInt := by
      cases values with
      | nil => cases hrange
      | cons v values =>
        have := le_and_le_of_range? hrange List.mem_cons_self
        omega
    have hspan := toInt_span hle
    simp only [hrange, Bool.and_eq_true, decide_eq_true_eq, Int64.lt_iff_toInt_lt,
      Int64.le_iff_toInt_le, hlimit, show maxSpan.toInt = 256 from rfl, Int64.toInt_zero]
    grind

/-- A table is made exactly when there are values and their span, as a number, is small enough; it has
a place for each of them. -/
theorem dense?_exact (cases : List (List Int64 × Nat)) (lo hi : Int64)
    (hcount : (cases.flatMap Prod.fst).length < 2 ^ 61) :
    (dense? (cases.flatMap Prod.fst) = some (lo, hi) ↔
      ((cases.flatMap Prod.fst).map Int64.toInt).min? = some lo.toInt ∧
        ((cases.flatMap Prod.fst).map Int64.toInt).max? = some hi.toInt ∧
        hi.toInt - lo.toInt + 1 ≤ 256 ∧ hi.toInt - lo.toInt + 1 ≤ 3 * (cases.flatMap Prod.fst).length) ∧
    (dense? (cases.flatMap Prod.fst) = some (lo, hi) → ∀ fallback, ∀ v ∈ cases.flatMap Prod.fst,
      0 ≤ (v - lo).toInt ∧ (v - lo).toInt < (tableTargets lo hi fallback cases).length) := by
  refine ⟨?_, fun h fallback v hv => ?_⟩
  · rw [dense?_eq_some_iff hcount, range?_eq_some_iff, and_assoc]
  · obtain ⟨hrange, hsmall, -⟩ := (dense?_eq_some_iff hcount).mp h
    have hv := le_and_le_of_range? hrange hv
    have hspan := toInt_span (Int.le_trans hv.1 hv.2)
    rw [length_tableTargets, Int64.toInt_sub, Int.bmod_eq_of_le (by omega) (by omega)]
    omega

theorem dense?_exact_extremes :
    dense? [Int64.minValue, Int64.maxValue] ≠ some (Int64.minValue, Int64.maxValue) ∧
      dense? [Int64.maxValue, 9223372036854775805] = some (9223372036854775805, Int64.maxValue) := by
  refine ⟨fun h => ?_, ?_⟩
  · have hspan := ((dense?_exact [([Int64.minValue, Int64.maxValue], 0)] _ _ (by decide)).1.mp h).2.2.1
    exact absurd hspan (by decide)
  · exact (dense?_exact [([Int64.maxValue], 0), ([9223372036854775805], 1)] _ _ (by decide)).1.mpr (by decide)

end TreeWasm.Switch
