import TreeWasm.Settings.File.Text

/-! # Keys of a settings file

A key has one or more parts with dots between them. A part is plain, of Latin letters, digits,
dashes and underscores, or quoted. A key before an equals sign is read in two steps: first its
text, in which escapes are resolved and the quotes are kept, and then the parts of that text.
-/

namespace TreeWasm.SettingsFile

def isBare (c : Char) : Bool := c.isAlphanum || c = '-' || c = '_'

/-- Reads the text of a key up to the blanks or the equals sign after it, in at most `count`
steps. Blanks go on with the key only around a dot. -/
def readKeyText : (count : Nat) → List Char → Option (List Char × List Char)
  | 0, _ => none
  | count + 1, cs =>
    match cs with
    | [] | '=' :: _ => some ([], cs)
    | '"' :: rest => do
      let (part, rest) ← readQuoted ['"'] true false rest
      let (tail, rest) ← readKeyText count rest
      return ('"' :: part ++ '"' :: tail, rest)
    | '\'' :: rest => do
      let (part, rest) ← readLiteral ['\''] rest
      let (tail, rest) ← readKeyText count rest
      return ('\'' :: part ++ '\'' :: tail, rest)
    | c :: rest =>
      if isBlank c then
        match skipBlanks rest with
        | '.' :: after => do
          let before := ' ' :: rest.takeWhile isBlank
          let (tail, rest) ← readKeyText count (skipBlanks after)
          return (before ++ '.' :: after.takeWhile isBlank ++ tail, rest)
        | after => some ([], after)
      else if c = '.' || isBare c then do
        let (tail, rest) ← readKeyText count rest
        return (c :: tail, rest)
      else none

/-- Splits a quoted part off the text of a key, after its first quote. -/
def splitQuotedPart (quote : Char) (cs : List Char) : Option (List Char × List Char) :=
  let part := cs.takeWhile (· ≠ quote)
  match cs.drop part.length with
  | _ :: rest => some (part, rest)
  | [] => none

/-- Splits a plain part off the text of a key. Only blanks and a dot may follow it. -/
def splitBarePart (cs : List Char) : Option (List Char × List Char) :=
  let part := cs.takeWhile isBare
  let rest := cs.drop part.length
  match skipBlanks rest with
  | [] => some (part, [])
  | c :: after => if c = '.' then some (part, c :: after) else none

/-- The parts of the text of a key, at most `count` of them and their dots. A dot needs a part or a
blank after it. -/
def keyPartsFrom : (count : Nat) → List Char → Option (List String)
  | 0, _ => none
  | count + 1, cs =>
    match skipBlanks cs with
    | [] => some []
    | '.' :: rest =>
      match rest with
      | [] => none
      | c :: _ =>
        if isBare c || c = '\'' || c = '"' || c = ' ' then keyPartsFrom count rest else none
    | c :: rest => do
      let (part, rest) ←
        if c = '"' || c = '\'' then splitQuotedPart c rest
        else if isBare c then splitBarePart (c :: rest)
        else none
      let parts ← keyPartsFrom count rest
      return String.ofList part :: parts

def keyParts (text : List Char) : Option (List String) :=
  (keyPartsFrom (text.length + 1) text).filter (fun parts => !parts.isEmpty)

end TreeWasm.SettingsFile
