import TreeWasm.Number.Literal
import TreeWasm.Number.Nearest

/-! # Floating-point literals

Decimal literals with an optional point and exponent, hexadecimal ones with a binary exponent, and
words for infinity and NaN. Underscores separate digits as in integers.
-/

namespace TreeWasm.Number

/-- The digits of a literal before its exponent: their value, and how many of them stand after the
point. -/
structure Mantissa where
  value : Nat := 0
  places : Nat := 0
  seen : Bool := false
  deriving DecidableEq, Repr

/-- Reads digits with at most one point among them, and returns what follows. -/
def readMantissa (base : Nat) : (point : Bool) → Mantissa → List Char → Mantissa × List Char
  | _, m, [] => (m, [])
  | point, m, c :: rest =>
    if c = '_' then readMantissa base point m rest
    else if c = '.' then
      if point then (m, c :: rest) else readMantissa base true m rest
    else if isDigit c || (base = 16 && isHexLetter c) then
      let digit := (digitValue? c).getD 0
      let places := if point then m.places + 1 else m.places
      readMantissa base point ⟨m.value * base + digit, places, true⟩ rest
    else (m, c :: rest)

/-- The value of exponent digits; past five digits it grows no more. -/
def exponentValue (digits : List Char) : Nat :=
  digits.foldl (fun e c =>
    if c = '_' ∨ 10000 ≤ e then e else e * 10 + (digitValue? c).getD 0) 0

/-- Reads the exponent that ends a literal, after its mark. -/
def readExponent (text : List Char) : Option Int :=
  let digits := dropSign text
  match digits with
  | [] => none
  | first :: _ =>
    if isDigit first && digits.all (fun c => isDigit c || c = '_') then
      let value : Int := exponentValue digits
      some (if text.head? = some '-' then -value else value)
    else none

inductive Magnitude
  | zero
  | ratio (num den : Nat)
  | huge
  | infinity
  | nan
  deriving DecidableEq, Repr

/-- The number `value * base ^ exponent`, unless it is far out of the range of any format. -/
def Magnitude.scaled (value base : Nat) (exponent : Int) : Magnitude :=
  if value = 0 then zero
  else
    let size : Int := (value.log2 : Int) + exponent * base.log2
    if 4000 < size then huge
    else if size + exponent.natAbs < -4000 then zero
    else if 0 ≤ exponent then ratio (value * Nat.pow base exponent.toNat) 1
    else ratio value (Nat.pow base exponent.natAbs)

/-- Reads an unsigned literal of digits, `text` being the whole of it with its sign. -/
def readDigitsLiteral (text unsigned : List Char) : Option Magnitude :=
  let (base, mark, digits) := match unsigned with
    | '0' :: 'x' :: d :: rest | '0' :: 'X' :: d :: rest => (16, 'p', d :: rest)
    | _ => (10, 'e', unsigned)
  let (m, rest) := readMantissa base false {} digits
  if !m.seen then none
  else
    let exponent := match rest with
      | [] => if base = 16 then none else some 0
      | c :: rest => if c.toLower = mark then readExponent rest else none
    exponent.bind (fun e =>
      if text.contains '_' && !underscoresSeparate text then none
      else if base = 16 then some (.scaled m.value 2 (e - 4 * m.places))
      else some (.scaled m.value 10 (e - m.places)))

/-- Reads a literal: whether it is negative, and its absolute value. -/
def readMagnitude (text : List Char) : Option (Bool × Magnitude) :=
  let negative := text.head? = some '-'
  let unsigned := dropSign text
  let word := String.ofList (unsigned.map Char.toLower)
  if word = "inf" ∨ word = "infinity" then some (negative, .infinity)
  else if word = "nan" then if unsigned = text then some (false, .nan) else none
  else (readDigitsLiteral text unsigned).map (negative, ·)

/-- The bits of the absolute value of a literal; a number beyond the greatest is out of range. -/
def BinaryFormat.bits (format : BinaryFormat) (nan : Nat) : Magnitude → Except LiteralFault Nat
  | .zero => .ok 0
  | .ratio num den =>
    let bits := format.nearestBits num den
    if format.infinity ≤ bits then .error .outOfRange else .ok bits
  | .huge => .error .outOfRange
  | .infinity => .ok format.infinity
  | .nan => .ok nan

def readDouble (text : List Char) : Except LiteralFault Double :=
  match readMagnitude text with
  | none => .error .invalid
  | some (negative, magnitude) =>
    (BinaryFormat.double.bits 0x7FF8000000000001 magnitude).map (fun bits =>
      ⟨UInt64.ofNat (if negative then bits + 0x8000000000000000 else bits)⟩)

def readSingle (text : List Char) : Except LiteralFault Single :=
  match readMagnitude text with
  | none => .error .invalid
  | some (negative, magnitude) =>
    (BinaryFormat.single.bits 0x7FC00000 magnitude).map (fun bits =>
      ⟨UInt32.ofNat (if negative then bits + 0x80000000 else bits)⟩)

end TreeWasm.Number
