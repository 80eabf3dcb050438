import TreeWasm.Number.Double

/-! # Rounding to binary floating point

The number of a binary format that is nearest to a ratio, a tie going to the even one.
-/

namespace TreeWasm.Number

/-- A binary format: its bits of precision, the exponent of its least positive number, and the
bits of infinity. -/
structure BinaryFormat where
  precision : Nat
  minExponent : Int
  infinity : Nat
  deriving DecidableEq, Repr

namespace BinaryFormat

def double : BinaryFormat := ⟨53, -1074, 0x7FF0000000000000⟩

def single : BinaryFormat := ⟨24, -149, 0x7F800000⟩

end BinaryFormat

/-- A quotient rounded to the nearest natural number, a tie to the even one. -/
def roundQuotient (num den : Nat) : Nat :=
  let low := num / den
  let twice := 2 * (num % den)
  if twice < den then low
  else if den < twice then low + 1
  else low + low % 2

namespace BinaryFormat

def scale (num den : Nat) (exponent : Int) : Nat × Nat :=
  (num * Nat.pow 2 (-exponent).toNat, den * Nat.pow 2 exponent.toNat)

/-- The exponent of the last bit of the numbers around a positive ratio. -/
def lastBit (format : BinaryFormat) (num den : Nat) : Int :=
  let guess := (num.log2 : Int) - den.log2 - format.precision
  let (scaledNum, scaledDen) := scale num den guess
  let exact := if scaledDen * Nat.pow 2 format.precision ≤ scaledNum then guess + 1 else guess
  max exact format.minExponent

/-- The bits of the number nearest to a ratio. A ratio too large gives the bits of infinity or
more. -/
def nearestBits (format : BinaryFormat) (num den : Nat) : Nat :=
  if num = 0 then 0
  else
    let exponent := format.lastBit num den
    let (scaledNum, scaledDen) := scale num den exponent
    (exponent - format.minExponent).toNat * Nat.pow 2 (format.precision - 1) +
      roundQuotient scaledNum scaledDen

end BinaryFormat

end TreeWasm.Number
