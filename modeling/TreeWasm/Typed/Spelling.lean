import TreeWasm.Fault
import TreeWasm.Number.Literal
import TreeWasm.Text.Utf8
import TreeWasm.Typed.Type

/-! # Spelling of types

A type is spelled `*T`, `[n]T`, `[]T`, `fun(T, …): T`, or by the name of a builtin or declared
type, with spaces before any part. Spellings are read byte by byte.
-/

namespace TreeWasm

/-- Bytes of names: letters and digits of the first 256 characters, and the underscore. -/
def isNameByte (b : UInt8) : Bool :=
  let n := b.toNat
  (0x30 ≤ n && n ≤ 0x39) || (0x41 ≤ n && n ≤ 0x5A) || (0x61 ≤ n && n ≤ 0x7A) || n = 0x5F ||
    n = 0xAA || n = 0xB5 || n = 0xBA || (0xC0 ≤ n && n ≤ 0xD6) || (0xD8 ≤ n && n ≤ 0xF6) || 0xF8 ≤ n

namespace Spelling

def skipSpaces (s : List UInt8) : List UInt8 :=
  s.dropWhile (· == 0x20)

/-- The text after an optional mark, if the mark comes next. -/
def accept (mark : Char) (s : List UInt8) : Option (List UInt8) :=
  match skipSpaces s with
  | b :: rest => if b.toNat = mark.toNat then some rest else none
  | [] => none

def expect (mark : Char) (s : List UInt8) : Except SpellingFault (List UInt8) :=
  match accept mark s with
  | some rest => .ok rest
  | none => .error (.expected (String.singleton mark))

/-- The longest name that comes next, perhaps empty, and the text after it. -/
def word (s : List UInt8) : List UInt8 × List UInt8 :=
  (skipSpaces s).span isNameByte

/-- The length of an array: decimal digits below `2 ^ 63`. -/
def length? (digits : List UInt8) : Option Int64 :=
  let chars := digits.map (fun b => Char.ofNat b.toNat)
  if chars.isEmpty || !chars.all Number.isDigit then none
  else
    match Number.readDigits 10 0x7FFFFFFFFFFFFFFF 0 chars with
    | .ok value => some (Int64.ofNat value)
    | .error _ => none

mutual

/-- Reads a type and returns the text after it. `known` gives the types that have names; the fuel
bounds how deep types are nested. -/
def readType (known : List UInt8 → Option Ty) :
    (fuel : Nat) → List UInt8 → Except SpellingFault (Ty × List UInt8)
  | 0, _ => .error .expectedName
  | fuel + 1, s =>
    match accept '*' s with
    | some rest => do
      let (elem, rest) ← readType known fuel rest
      return (.pointer 0 elem, rest)
    | none =>
      match accept '[' s with
      | some rest =>
        match accept ']' rest with
        | some rest => do
          let (elem, rest) ← readType known fuel rest
          return (.array 0 none elem, rest)
        | none => do
          let (digits, rest) := word rest
          let length ← (length? digits).elim (.error .arrayLength) .ok
          let rest ← expect ']' rest
          let (elem, rest) ← readType known fuel rest
          return (.array 0 (some length) elem, rest)
      | none =>
        let (name, rest) := word s
        if name.isEmpty then .error .expectedName
        else if name = Text.bytes "fun" then do
          let rest ← expect '(' rest
          let (params, rest) ←
            match accept ')' rest with
            | some rest => .ok ([], rest)
            | none => readParams known fuel rest
          match accept ':' rest with
          | some rest =>
            let (result, rest) ← readType known fuel rest
            return (.function 0 params result, rest)
          | none => return (.function 0 params .void, rest)
        else
          match known name with
          | some t => .ok (t, rest)
          | none => .error (.unknownName (Text.ofBytes name))

/-- Reads parameter types up to the closing parenthesis. -/
def readParams (known : List UInt8 → Option Ty) :
    (fuel : Nat) → List UInt8 → Except SpellingFault (List Ty × List UInt8)
  | 0, _ => .error .expectedName
  | fuel + 1, s => do
    let (param, rest) ← readType known fuel s
    match accept ')' rest with
    | some rest => return ([param], rest)
    | none =>
      let rest ← expect ',' rest
      let (params, rest) ← readParams known fuel rest
      return (param :: params, rest)

end

def knownType (declared : Level Ty) (name : List UInt8) : Option Ty :=
  match Builtin.named.find? (fun b => Text.bytes b.text == name) with
  | some b => some (.builtin b)
  | none =>
    (declared.bindings.find? (fun binding => Text.bytes binding.1 == name)).map Prod.snd

def read (declared : Level Ty) (text : String) : Except SpellingFault Ty := do
  let s := Text.bytes text
  let (t, rest) ← readType (knownType declared) (2 * s.length + 2) s
  let rest := skipSpaces rest
  if rest.isEmpty then return t else .error (.unexpected (Text.ofBytes rest))

end Spelling

mutual

/-- Numbers the occurrences within a type anew, so that it shares none with another type. -/
def TypeTable.renumber (table : TypeTable) : Ty → TypeTable × Ty
  | .pointer _ elem =>
    let (table, elem) := table.renumber elem
    table.pointerTo elem
  | .array _ length elem =>
    let (table, elem) := table.renumber elem
    table.arrayOf length elem
  | .function _ params result =>
    let (table, params) := table.renumberAll params
    let (table, result) := table.renumber result
    table.functionFrom params result
  | .location elem =>
    let (table, elem) := table.renumber elem
    (table, .location elem)
  | t => (table, t)

def TypeTable.renumberAll (table : TypeTable) : List Ty → TypeTable × List Ty
  | [] => (table, [])
  | t :: rest =>
    let (table, t) := table.renumber t
    let (table, rest) := table.renumberAll rest
    (table, t :: rest)

end

end TreeWasm
