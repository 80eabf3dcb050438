import TreeWasm.Number.Shortest

/-! # Numbers as text

The shortest digits of a number laid out with a point or with an exponent.
-/

namespace TreeWasm.Number

/-- When and how an exponent is written: for exponents below the first bound or from the second
on, with at least the given number of digits. -/
structure ExponentStyle where
  below : Int
  start : Int
  digits : Nat
  deriving DecidableEq, Repr

namespace ExponentStyle

/-- The style of values shown to people. -/
def shown : ExponentStyle := ⟨-4, 6, 2⟩

def digitsText (digits : List Nat) : String :=
  String.ofList (digits.map Nat.digitChar)

/-- Digits with a point, the first of them standing for the given power of ten. -/
def positional (digits : List Nat) (exponent : Int) : String :=
  if exponent < 0 then "0." ++ "".pushn '0' (-exponent - 1).toNat ++ digitsText digits
  else
    let whole := exponent.toNat + 1
    let fraction := digits.drop whole
    let head := (digitsText (digits.take whole)).pushn '0' (whole - digits.length)
    if fraction.isEmpty then head else head ++ "." ++ digitsText fraction

/-- Digits with an exponent, a point after the first of them. -/
def scientific (style : ExponentStyle) (digits : List Nat) (exponent : Int) : String :=
  let head := digitsText (digits.take 1)
  let fraction := digits.drop 1
  let mantissa := if fraction.isEmpty then head else head ++ "." ++ digitsText fraction
  let size := toString exponent.natAbs
  mantissa ++ (if exponent < 0 then "e-" else "e+") ++
    "".pushn '0' (style.digits - size.length) ++ size

def text (style : ExponentStyle) (d : Decimal) : String :=
  let (digits, exponent) := d.significant
  if exponent < style.below ∨ style.start ≤ exponent then style.scientific digits exponent
  else positional digits exponent

end ExponentStyle

/-- A number by its sign and the bits of its absolute value. -/
def BinaryFormat.text (format : BinaryFormat) (style : ExponentStyle) (negative : Bool) (bits : Nat) : String :=
  let sign := if negative then "-" else ""
  if format.infinity < bits then "NaN"
  else if bits = format.infinity then if negative then "-Inf" else "+Inf"
  else if bits = 0 then sign ++ "0"
  else sign ++ style.text (format.decode bits).shortest

end TreeWasm.Number

namespace TreeWasm

def Double.text (style : Number.ExponentStyle) (x : Double) : String :=
  Number.BinaryFormat.double.text style (0x8000000000000000 ≤ x.bits.toNat)
    (x.bits.toNat % 0x8000000000000000)

def Single.text (style : Number.ExponentStyle) (x : Single) : String :=
  Number.BinaryFormat.single.text style (0x80000000 ≤ x.bits.toNat)
    (x.bits.toNat % 0x80000000)

end TreeWasm
