import TreeWasm.Number.Literal
import TreeWasm.Number.Nearest

/-! # Shortest decimals

The fewest decimal digits that read back to a number of a binary format. All reals between the two
points halfway to the neighbours of a number read back to it, the ends only if its last bit is 0.
Among the decimals of fewest digits the nearest is taken.
-/

namespace TreeWasm.Number

/-- A positive number `mantissa * 2 ^ exponent` of a binary format. -/
structure Binary where
  mantissa : Nat
  exponent : Int
  /-- Whether the number below is half as far away as the number above. -/
  narrowBelow : Bool
  deriving DecidableEq, Repr

/-- The decimal number `digits * 10 ^ exponent`. -/
structure Decimal where
  digits : Nat
  exponent : Int
  deriving DecidableEq, Repr

/-- The number with the given bits, which are those of a finite positive number. -/
def BinaryFormat.decode (format : BinaryFormat) (bits : Nat) : Binary :=
  let hidden := Nat.pow 2 (format.precision - 1)
  let biased := bits / hidden
  let fraction := bits % hidden
  if biased = 0 then ⟨fraction, format.minExponent, false⟩
  else ⟨hidden + fraction, format.minExponent + biased - 1, fraction = 0 ∧ 1 < biased⟩

namespace Binary

/-- Compares `a * 10 ^ i` with `n * 2 ^ j`. -/
def compareScaled (a : Nat) (i : Int) (n : Nat) (j : Int) : Ordering :=
  compare (a * Nat.pow 10 i.toNat * Nat.pow 2 (-j).toNat)
    (n * Nat.pow 2 j.toNat * Nat.pow 10 (-i).toNat)

/-- Whether a decimal lies among the reals that round to the number. -/
def readsBack (x : Binary) (d : Decimal) : Bool :=
  let low := if x.narrowBelow then 4 * x.mantissa - 1 else 4 * x.mantissa - 2
  let high := 4 * x.mantissa + 2
  let closed := x.mantissa % 2 = 0
  let below := compareScaled d.digits d.exponent low (x.exponent - 2)
  let above := compareScaled d.digits d.exponent high (x.exponent - 2)
  (below == .gt || (closed && below == .eq)) && (above == .lt || (closed && above == .eq))

/-- The whole part of the number divided by a power of ten. -/
def floorAt (x : Binary) (exponent : Int) : Nat :=
  (x.mantissa * Nat.pow 2 x.exponent.toNat * Nat.pow 10 (-exponent).toNat) /
    (Nat.pow 2 (-x.exponent).toNat * Nat.pow 10 exponent.toNat)

/-- The better of the two decimals around the number on the grid of a power of ten, if one of them
reads back. A tie goes to the even one. -/
def onGrid (x : Binary) (exponent : Int) : Option Decimal :=
  let low := x.floorAt exponent
  let lower : Decimal := ⟨low, exponent⟩
  let upper : Decimal := ⟨low + 1, exponent⟩
  match x.readsBack lower, x.readsBack upper with
  | true, false => some lower
  | false, true => some upper
  | false, false => none
  | true, true =>
    match compareScaled (2 * low + 1) exponent (2 * x.mantissa) x.exponent with
    | .lt => some upper
    | .gt => some lower
    | .eq => some (if low % 2 = 0 then lower else upper)

/-- A power of ten that is greater than the number, and at most a few times ten too great. -/
def scale (x : Binary) : Int :=
  ((x.mantissa.log2 : Int) + x.exponent + 1) * 30103 / 100000 + 2

/-- The fewest digits that read back. -/
def shortest (x : Binary) : Decimal :=
  let grids := (List.range 25).map (fun (n : Nat) => x.scale - (n : Int))
  (grids.findSome? x.onGrid).getD ⟨x.floorAt (x.scale - 25), x.scale - 25⟩

end Binary

/-- The significant digits, without zeros at the end, and the exponent of the first of them. -/
def Decimal.significant (d : Decimal) : List Nat × Int :=
  let digits := decimalDigits d.digits
  let kept := (digits.reverse.dropWhile (· == 0)).reverse
  (kept, d.exponent + digits.length - 1)

end TreeWasm.Number
