import TreeWasm.Number.Decimal
import TreeWasm.Text.Calendar

/-! # Tags

What a plain scalar is taken for, from its text alone.
-/

namespace TreeWasm.Document

inductive Tag
  | null | bool | int | float | timestamp | merge | text
  | sequence | mapping
  deriving DecidableEq, Repr

/-- Whether a text is a day, perhaps with a time: after `T` a time with its zone, after blanks a
time without one. Months, days, hours, minutes and seconds may have one digit. -/
def isTimestamp (text : List Char) : Bool :=
  match Calendar.splitDay Calendar.splitShort text with
  | none => false
  | some [] => true
  | some (mark :: rest) =>
    let time := fun text =>
      (Calendar.splitClock Calendar.splitShort text).map Calendar.dropFraction
    if mark = 'T' ∨ mark = 't' then ((time rest).bind Calendar.splitZone) == some []
    else mark = ' ' && time (rest.dropWhile (· = ' ')) == some []

def isDecimal (text : List Char) : Bool :=
  let text := Number.dropSign text
  let whole := text.takeWhile Number.isDigit
  let rest := text.dropWhile Number.isDigit
  let (valid, rest) := match rest with
    | '.' :: rest =>
      let fraction := rest.takeWhile Number.isDigit
      (!whole.isEmpty || !fraction.isEmpty, rest.dropWhile Number.isDigit)
    | rest => (!whole.isEmpty, rest)
  valid && match rest with
    | [] => true
    | mark :: rest =>
      (mark = 'e' || mark = 'E') &&
        let digits := Number.dropSign rest
        !digits.isEmpty && digits.all Number.isDigit

/-- Whether a text is a number of at most 64 bits in a base: `0`, the base's letter and digits. A
sign stands before the digits, or a minus sign in front of it all; with a sign the number is one of
63 bits, the least negative one included. -/
def isBased (letter : Char) (base : Nat) (text : List Char) : Bool :=
  let within := fun (greatest : Nat) (digits : List Char) =>
    !digits.isEmpty && (Number.readDigits base greatest 0 digits).isOk
  match text with
  | '-' :: '0' :: c :: digits => c = letter && within 0x8000000000000000 digits
  | '0' :: c :: '-' :: digits => c = letter && within 0x8000000000000000 digits
  | '0' :: c :: '+' :: digits => c = letter && within 0x7FFFFFFFFFFFFFFF digits
  | '0' :: c :: digits => c = letter && within 0xFFFFFFFFFFFFFFFF digits
  | _ => false

def isInteger (text : List Char) : Bool :=
  (Number.readSigned 64 text).isOk || (Number.readUnsigned 64 text).isOk

/-- The tag of a text that starts with a digit or a sign. -/
def tagOfNumeral (text : List Char) : Tag :=
  let plain := text.filter (· != '_')
  if isTimestamp text then .timestamp
  else if isInteger plain then .int
  else if isDecimal plain && (Number.readDouble plain).isOk then .float
  else if isBased 'b' 2 plain || isBased 'o' 8 plain then .int
  else .text

def tagOfPlain (text : String) : Tag :=
  if ["true", "True", "TRUE", "false", "False", "FALSE"].contains text then .bool
  else if ["", "~", "null", "Null", "NULL"].contains text then .null
  else if [".nan", ".NaN", ".NAN", ".inf", ".Inf", ".INF", "+.inf", "+.Inf", "+.INF",
      "-.inf", "-.Inf", "-.INF"].contains text then .float
  else if text = "<<" then .merge
  else
    match text.toList with
    | [] => .null
    | c :: rest =>
      if c = '.' then if (Number.readDouble (c :: rest)).isOk then .float else .text
      else if Number.isDigit c || c = '+' || c = '-' then tagOfNumeral (c :: rest)
      else .text

end TreeWasm.Document
