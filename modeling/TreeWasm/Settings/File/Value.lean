import TreeWasm.Number.Decimal
import TreeWasm.Settings.File.Key
import TreeWasm.Settings.File.Table
import TreeWasm.Text.Calendar

/-! # Values of a settings file

A value is a text, a number, a truth value, a date or time, a list in brackets or a table in
braces. A list may go over several lines, with comments between its items.
-/

namespace TreeWasm

inductive FileFault
  | malformed
  /-- An integer of three or more digits that starts with a zero. -/
  | leadingZero
  deriving DecidableEq, Repr

namespace SettingsFile

/-- A part that has to be there. -/
def need {α : Type} : Option α → Except FileFault α
  | some value => .ok value
  | none => .error .malformed

def isHex (c : Char) : Bool := Number.isDigit c || Number.isHexLetter c

/-- Whether every underscore has a digit before it and something after it. -/
def spacesDigits (digit : Char → Bool) : (before : Bool) → List Char → Bool
  | _, [] => true
  | before, c :: rest =>
    (c ≠ '_' || (before && !rest.isEmpty)) && spacesDigits digit (digit c) rest

/-- The base of an integer of at least three characters without underscores, and its digits. -/
def integerBase : List Char → Except FileFault (Nat × List Char)
  | '0' :: letter :: digit :: rest =>
    match letter with
    | 'x' => .ok (16, digit :: rest)
    | 'o' => .ok (8, digit :: rest)
    | 'b' => .ok (2, digit :: rest)
    | _ => .error .leadingZero
  | digits => .ok (10, digits)

def integerOfWord (word : List Char) : Except FileFault FileValue := do
  let (base, digits) ← integerBase (word.filter (· ≠ '_'))
  let unsigned := Number.dropSign digits
  let negative := digits.head? = some '-'
  let greatest := if negative then 0x8000000000000000 else 0x7FFFFFFFFFFFFFFF
  if !spacesDigits (if base = 16 then isHex else Number.isDigit) false word || unsigned.isEmpty then
    .error .malformed
  else
    match Number.readDigits base greatest 0 unsigned with
    | .ok value => .ok (.integer (Int64.ofInt (if negative then -(value : Int) else value)))
    | .error _ => .error .malformed

/-- The number with a fraction or exponent that a word spells. -/
def fractionOfWord (word : List Char) : Except FileFault FileValue :=
  let digits := word.filter (· ≠ '_')
  if spacesDigits Number.isDigit false word && (Number.readDouble digits).isOk then .ok .other
  else .error .malformed

/-- A decimal number split off a text, and whether it has a fraction or exponent. -/
structure DecimalWord where
  word : List Char
  fractional : Bool
  rest : List Char
  deriving DecidableEq, Repr

def DecimalWord.cons (c : Char) (w : DecimalWord) : DecimalWord := { w with word := c :: w.word }

/-- Splits a decimal number off a text: digits and underscores, one point between digits, exponents.
`digit`, `point` and `exponent` say what came before. -/
def splitDecimal : (digit point exponent : Bool) → List Char → Option DecimalWord
  | digit, point, exponent, [] => if digit then some ⟨[], point || exponent, []⟩ else none
  | digit, point, exponent, c :: rest =>
    if c = '.' then
      if !point && digit && rest.head?.any Number.isDigit then
        (splitDecimal digit true exponent rest).map (DecimalWord.cons c)
      else none
    else if c = 'e' || c = 'E' then
      match rest with
      | '+' :: rest => (splitDecimal digit point true rest).map (fun w => (w.cons '+').cons c)
      | '-' :: rest => (splitDecimal digit point true rest).map (fun w => (w.cons '-').cons c)
      | rest => (splitDecimal digit point true rest).map (DecimalWord.cons c)
    else if Number.isDigit c then
      (splitDecimal true point exponent rest).map (DecimalWord.cons c)
    else if c = '_' then (splitDecimal digit point exponent rest).map (DecimalWord.cons c)
    else if digit then some ⟨[], point || exponent, c :: rest⟩
    else none

/-- Reads a decimal number, or infinity or no number after a sign. -/
def readDecimal (cs : List Char) : Except FileFault (FileValue × List Char) := do
  let unsigned := Number.dropSign cs
  let sign := cs.take (cs.length - unsigned.length)
  if !sign.isEmpty && ("inf".toList.isPrefixOf unsigned || "nan".toList.isPrefixOf unsigned) then
    return (.other, unsigned.drop 3)
  let w ← need (splitDecimal false false false unsigned)
  let word := sign ++ w.word
  return (← if w.fractional then fractionOfWord word else integerOfWord word, w.rest)

/-- Reads digits of another base after a zero and its letter. -/
def readBased (letter : Char) (digit : Char → Bool) (cs : List Char) :
    Except FileFault (FileValue × List Char) :=
  let digits := cs.takeWhile (fun c => digit c || c = '_')
  if digits.isEmpty then .error .malformed
  else do return (← integerOfWord ('0' :: letter :: digits), cs.drop digits.length)

def readNumber (cs : List Char) : Except FileFault (FileValue × List Char) :=
  match cs with
  | '0' :: 'x' :: rest => readBased 'x' isHex rest
  | '0' :: 'o' :: rest => readBased 'o' (fun c => '0' ≤ c && c ≤ '7') rest
  | '0' :: 'b' :: rest => readBased 'b' (fun c => c = '0' || c = '1') rest
  | '0' :: c :: rest => if c.isAlpha then .error .malformed else readDecimal ('0' :: c :: rest)
  | cs => readDecimal cs

def readClock (cs : List Char) : Option (List Char) := do
  let rest ← Calendar.splitClock Calendar.splitTwo cs
  match rest with
  | '.' :: c :: rest => if Number.isDigit c then some (rest.dropWhile Number.isDigit) else none
  | ['.'] => none
  | rest => some rest

/-- Reads a day, perhaps with a time and its zone. -/
def readDay (cs : List Char) : Option (List Char) := do
  let rest ← Calendar.splitDay Calendar.splitTwo cs
  let timed := match rest with
    | 'T' :: _ => true
    | ' ' :: a :: b :: _ => Number.isDigit a && Number.isDigit b
    | _ => false
  if timed then
    let rest ← readClock (rest.drop 1)
    match rest with
    | c :: _ => if c = 'Z' || c = '+' || c = '-' then Calendar.splitZone rest else some rest
    | [] => some []
  else some rest

/-- Reads a number, date or time that starts with a digit. -/
def readNumeral (cs : List Char) : Except FileFault (FileValue × List Char) :=
  match cs.span Number.isDigit with
  | ([_, _], ':' :: _) => (need (readClock cs)).map (fun rest => (.other, rest))
  | ([_, _, _, _], '-' :: _) => (need (readDay cs)).map (fun rest => (.other, rest))
  | _ => readNumber cs

/-- Reads a value of a single word. -/
def readWord (cs : List Char) : Except FileFault (FileValue × List Char) :=
  match ["true", "false", "inf", "nan"].find? (fun word => word.toList.isPrefixOf cs) with
  | some word => .ok (.other, cs.drop word.length)
  | none =>
    match cs with
    | [] => .error .malformed
    | c :: _ =>
      if c = '+' || c = '-' then readDecimal cs
      else if Number.isDigit c then readNumeral cs
      else .error .malformed

def readKey (fuel : Nat) (cs : List Char) : Except FileFault (List String × List Char) := do
  let (text, rest) ← need (readKeyText fuel cs)
  match skipLines rest with
  | '=' :: rest => return (← need (keyParts text), skipBlanks rest)
  | _ => .error .malformed

/-- The value of a list: tables only are tables that share a key. -/
def ofItems (items : List FileValue) : FileValue :=
  let isTable : FileValue → Bool := fun | .table _ _ => true | _ => false
  match items.getLast? with
  | some (.table closed last) => if items.all isTable then .tables closed last else .array items
  | _ => .array items

mutual

/-- Reads a value. The fuel bounds how deep values nest. -/
def readValue : (fuel : Nat) → List Char → Except FileFault (FileValue × List Char)
  | 0, _ => .error .malformed
  | fuel + 1, cs =>
    match cs with
    | '[' :: rest => do
      let (items, rest) ← readItems fuel rest
      return (ofItems items, rest)
    | '\x7b' :: rest => do
      let (entries, rest) ← readFields fuel true [] rest
      return (.table true entries, rest)
    | c :: rest =>
      if c = '"' || c = '\'' then
        (need (readText (c :: rest))).map (fun (t, rest) => (.text (String.ofList t), rest))
      else readWord (c :: rest)
    | [] => .error .malformed

/-- Reads the items of a list after its bracket or after a comma. -/
def readItems : (fuel : Nat) → List Char → Except FileFault (List FileValue × List Char)
  | 0, _ => .error .malformed
  | fuel + 1, cs =>
    match skipLines cs with
    | ']' :: rest => .ok ([], rest)
    | cs => do
      let (item, rest) ← readValue fuel cs
      match skipLines rest with
      | ',' :: rest =>
        let (items, rest) ← readItems fuel rest
        return (item :: items, rest)
      | ']' :: rest => return ([item], rest)
      | _ => .error .malformed

/-- Reads the entries of a table in braces, `t` being those before; a table does not end after a
comma. -/
def readFields : (fuel : Nat) → (first : Bool) → FileTable → List Char →
    Except FileFault (FileTable × List Char)
  | 0, _, _, _ => .error .malformed
  | fuel + 1, first, t, cs =>
    match skipLines cs with
    | '\x7d' :: rest => if first then .ok (t, rest) else .error .malformed
    | cs => do
      let (path, rest) ← readKey fuel cs
      let (value, rest) ← readValue fuel rest
      let t := FileTable.setPath value path t
      match skipComment (skipBlanks rest) with
      | ',' :: rest => readFields fuel false t rest
      | rest =>
        match skipLines rest with
        | '\x7d' :: rest => return (t, rest)
        | _ => .error .malformed

end

end SettingsFile

end TreeWasm
