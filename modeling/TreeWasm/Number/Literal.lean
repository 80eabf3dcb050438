/-! # Integer literals

Integers as programs and people write them: decimal, or with a base given by `0x`, `0o`, `0b` or a
leading `0`; digits may be separated by single underscores.
-/

namespace TreeWasm.Number

/-- Why a text is no number of the kind asked for. -/
inductive LiteralFault
  | invalid
  | outOfRange
  deriving DecidableEq, Repr

def isDigit (c : Char) : Bool := '0' ≤ c && c ≤ '9'

def isHexLetter (c : Char) : Bool := ('a' ≤ c && c ≤ 'f') || ('A' ≤ c && c ≤ 'F')

/-- The value of a digit; letters count from ten on. -/
def digitValue? (c : Char) : Option Nat :=
  if isDigit c then some (c.toNat - 48)
  else if 'a' ≤ c ∧ c ≤ 'z' then some (c.toNat - 87)
  else if 'A' ≤ c ∧ c ≤ 'Z' then some (c.toNat - 55)
  else none

/-- The base that a letter after a leading `0` stands for. -/
def baseOfLetter? : Char → Option Nat
  | 'b' | 'B' => some 2
  | 'o' | 'O' => some 8
  | 'x' | 'X' => some 16
  | _ => none

/-- The base of an unsigned literal and its digits. -/
def splitBase : List Char → Nat × List Char
  | '0' :: letter :: digit :: rest =>
    match baseOfLetter? letter with
    | some base => (base, digit :: rest)
    | none => (8, letter :: digit :: rest)
  | '0' :: rest => (8, rest)
  | digits => (10, digits)

def dropSign : List Char → List Char
  | '+' :: rest => rest
  | '-' :: rest => rest
  | cs => cs

/-- What stands before a place in a literal, as far as underscores are concerned. -/
inductive Before
  | start | digit | underscore | other
  deriving DecidableEq, Repr

/-- Whether every underscore stands between two digits. -/
def separates (hex : Bool) : Before → List Char → Bool
  | before, [] => before ≠ .underscore
  | before, c :: rest =>
    if isDigit c || (hex && isHexLetter c) then separates hex .digit rest
    else if c = '_' then before = .digit && separates hex .underscore rest
    else before ≠ .underscore && separates hex .other rest

/-- Whether every underscore of a literal stands between two digits or after the base. -/
def underscoresSeparate (text : List Char) : Bool :=
  match dropSign text with
  | '0' :: letter :: rest =>
    match baseOfLetter? letter with
    | some base => separates (base == 16) .digit rest
    | none => separates false .start ('0' :: letter :: rest)
  | cs => separates false .start cs

/-- The value of digits in a base, `value` being that of the digits before. Underscores are passed
over. The first digit that is none, or that exceeds the greatest value, decides the fault. -/
def readDigits (base greatest value : Nat) : List Char → Except LiteralFault Nat
  | [] => .ok value
  | '_' :: rest => readDigits base greatest value rest
  | c :: rest =>
    match digitValue? c with
    | none => .error .invalid
    | some d =>
      if base ≤ d then .error .invalid
      else if greatest < value * base + d then .error .outOfRange
      else readDigits base greatest (value * base + d) rest

def readUnsigned (bits : Nat) (text : List Char) : Except LiteralFault Nat :=
  if text.isEmpty then .error .invalid
  else
    let (base, digits) := splitBase text
    match readDigits base (Nat.pow 2 bits - 1) 0 digits with
    | .error fault => .error fault
    | .ok value =>
      if digits.contains '_' && !underscoresSeparate text then .error .invalid else .ok value

def readSigned (bits : Nat) (text : List Char) : Except LiteralFault Int :=
  let negative := text.head? = some '-'
  match readUnsigned bits (dropSign text) with
  | .error fault => .error fault
  | .ok value =>
    if negative then
      if Nat.pow 2 (bits - 1) < value then .error .outOfRange else .ok (-(value : Int))
    else if Nat.pow 2 (bits - 1) ≤ value then .error .outOfRange
    else .ok value

def decimalDigits (n : Nat) : List Nat :=
  (Nat.toDigits 10 n).map (fun c => c.toNat - 48)

end TreeWasm.Number
