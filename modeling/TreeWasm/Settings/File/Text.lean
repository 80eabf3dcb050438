import TreeWasm.Number.Literal

/-! # Texts and gaps in settings files

A text stands between double quotes, where a backslash starts an escape, or between single quotes,
where it does not. With three quotes on each side it may start on the line after the first ones.
-/

namespace TreeWasm.SettingsFile

def isBlank (c : Char) : Bool := c = ' ' || c = '\t'

def isBreak (c : Char) : Bool := c = '\n' || c = '\r'

def skipBlanks (cs : List Char) : List Char := cs.dropWhile isBlank

/-- Passes over a comment, which goes up to a line feed. -/
def skipComment : List Char → List Char
  | '#' :: rest => rest.dropWhile (· ≠ '\n')
  | cs => cs

/-- Passes over blanks, line breaks and comments; `comment` says that one is going on. -/
def skipLinesFrom : (comment : Bool) → List Char → List Char
  | _, [] => []
  | true, c :: rest => skipLinesFrom (c ≠ '\n') rest
  | false, c :: rest =>
    if c = '#' then skipLinesFrom true rest
    else if isBlank c || isBreak c then skipLinesFrom false rest
    else c :: rest

def skipLines (cs : List Char) : List Char := skipLinesFrom false cs

/-- The character with a code; a code that no character has stands for U+FFFD. -/
def charOfCode (code : Nat) : Char :=
  if code.isValidChar then Char.ofNat code else '\ufffd'

/-- The character whose code hexadecimal digits spell. -/
def charOfHex? (digits : List Char) : Option Char :=
  if digits.all (fun c => Number.isDigit c || Number.isHexLetter c) then
    some (charOfCode (digits.foldl (fun n c => n * 16 + (Number.digitValue? c).getD 0) 0))
  else none

def escaped? : Char → Option Char
  | 'b' => some '\x08'
  | 't' => some '\t'
  | 'n' => some '\n'
  | 'f' => some '\x0c'
  | 'r' => some '\r'
  | '"' => some '"'
  | '/' => some '/'
  | '\\' => some '\\'
  | _ => none

/-- Reads a text with escapes up to its closing quotes. Control characters other than the tab are
refused, line breaks unless `breaks` is set. A backslash before blanks or breaks takes them all
away; `skipping` says that this is going on. -/
def readQuoted (close : List Char) (breaks : Bool) :
    (skipping : Bool) → List Char → Option (List Char × List Char)
  | _, [] => none
  | skipping, c :: rest =>
    if skipping && (isBlank c || isBreak c) then readQuoted close breaks true rest
    else if close.isPrefixOf (c :: rest) then some ([], (c :: rest).drop close.length)
    else if c = '\\' then
      match rest with
      | 'u' :: a :: b :: c :: d :: rest => do
        let char ← charOfHex? [a, b, c, d]
        let (tail, rest) ← readQuoted close breaks false rest
        return (char :: tail, rest)
      | 'U' :: a :: b :: c :: d :: e :: f :: g :: h :: rest => do
        let char ← charOfHex? [a, b, c, d, e, f, g, h]
        let (tail, rest) ← readQuoted close breaks false rest
        return (char :: tail, rest)
      | c :: rest =>
        if isBlank c || isBreak c then readQuoted close breaks true rest
        else do
          let char ← escaped? c
          let (tail, rest) ← readQuoted close breaks false rest
          return (char :: tail, rest)
      | [] => none
    else if c.toNat < 0x20 && c ≠ '\t' && !(breaks && isBreak c) then none
    else do
      let (tail, rest) ← readQuoted close breaks false rest
      return (c :: tail, rest)

/-- Reads a text without escapes up to its closing quotes. -/
def readLiteral (close : List Char) : List Char → Option (List Char × List Char)
  | [] => none
  | c :: rest =>
    if close.isPrefixOf (c :: rest) then some ([], (c :: rest).drop close.length)
    else do
      let (tail, rest) ← readLiteral close rest
      return (c :: tail, rest)

/-- Passes over a line break right after three quotes. -/
def dropBreak : List Char → List Char
  | '\r' :: '\n' :: rest => rest
  | '\n' :: rest => rest
  | cs => cs

/-- Reads a text with its quotes; `none` if none starts here. -/
def readText : List Char → Option (List Char × List Char)
  | '"' :: '"' :: '"' :: rest => readQuoted ['"', '"', '"'] true false (dropBreak rest)
  | '"' :: rest => readQuoted ['"'] false false rest
  | '\'' :: '\'' :: '\'' :: rest => readLiteral ['\'', '\'', '\''] (dropBreak rest)
  | '\'' :: rest => readLiteral ['\''] rest
  | _ => none

end TreeWasm.SettingsFile
