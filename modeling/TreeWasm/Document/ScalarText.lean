import TreeWasm.Document.Token
import TreeWasm.Number.Literal

/-! # The text of scalars

A plain scalar ends before a mark of structure; a quoted one at its quote. Both may go over several
lines: a single line break between words becomes a blank, and of several the first is dropped.
-/

namespace TreeWasm.Document

/-- Blanks and breaks since the last word. -/
structure Gap where
  /-- Blanks before the first break, in reverse. -/
  blanks : List Char := []
  broken : Bool := false
  /-- The first break, unless it was escaped. -/
  first : Option Char := none
  /-- Further breaks, in reverse. -/
  more : List Char := []
  deriving DecidableEq, Repr

namespace Gap

def isEmpty (gap : Gap) : Bool := gap.blanks.isEmpty && !gap.broken

def addBlank (gap : Gap) (c : Char) : Gap :=
  if gap.broken then gap else { gap with blanks := c :: gap.blanks }

def addBreak (gap : Gap) (c : Char) : Gap :=
  if gap.broken then { gap with more := c :: gap.more }
  else { blanks := [], broken := true, first := some c, more := [] }

/-- The text that a gap between words stands for. -/
def fill (gap : Gap) : List Char :=
  if !gap.broken then gap.blanks.reverse
  else
    match gap.first with
    | some '\n' => if gap.more.isEmpty then [' '] else gap.more.reverse
    | some c => c :: gap.more.reverse
    | none => gap.more.reverse

end Gap

/-- A scalar with the place of its end and what comes after it. -/
structure ScalarText where
  text : List Char
  stop : Mark
  after : Cursor
  /-- Whether a line break was passed after the last word. -/
  broken : Bool
  deriving DecidableEq, Repr

def endsPlainInFlow (c : Char) : Bool :=
  [',', '?', '[', ']', '{', '}'].contains c

/-- Scans a plain scalar. `done` is its text so far in reverse and `stop` the end of that;
`indent` is the least column of a further line outside brackets. -/
def scanPlain (flow : Bool) (indent : Int) :
    List Char → Mark → (done : List Char) → Gap → (stop : Mark) → Option ScalarText
  | [], mark, done, gap, stop => some ⟨done.reverse, stop, ⟨[], mark⟩, gap.broken⟩
  | c :: rest, mark, done, gap, stop =>
    let finish := some ⟨done.reverse, stop, ⟨c :: rest, mark⟩, gap.broken⟩
    if isBlank c then
      if gap.broken && c = '\t' && (mark.column : Int) < indent then none
      else scanPlain flow indent rest mark.next done (gap.addBlank c) stop
    else if isBreak c then
      scanPlain flow indent rest mark.nextLine done (gap.addBreak c) stop
    else if !gap.isEmpty &&
        ((!flow && (mark.column : Int) < indent) || c = '#' ||
          (mark.column = 0 && startsDocumentMark (c :: rest))) then finish
    else if (c = ':' && startsBlank rest) || (flow && endsPlainInFlow c) then finish
    else
      scanPlain flow indent rest mark.next (c :: (gap.fill.reverse ++ done)) {} mark.next

def escapeLetter? : Char → Option Char
  | '0' => some '\x00'
  | 'a' => some '\x07'
  | 'b' => some '\x08'
  | 't' | '\t' => some '\t'
  | 'n' => some '\n'
  | 'v' => some '\x0b'
  | 'f' => some '\x0c'
  | 'r' => some '\r'
  | 'e' => some '\x1b'
  | ' ' => some ' '
  | '"' => some '"'
  | '\'' => some '\''
  | '\\' => some '\\'
  | 'N' => some '\u0085'
  | '_' => some '\u00a0'
  | 'L' => some '\u2028'
  | 'P' => some '\u2029'
  | _ => none

/-- The character with the number that hexadecimal digits spell. -/
def escapeNumber? (digits : List Char) : Option Char :=
  if digits.all (fun c => Number.isDigit c || Number.isHexLetter c) then
    let n := digits.foldl (fun n c => n * 16 + (Number.digitValue? c).getD 0) 0
    if n.isValidChar then some (Char.ofNat n) else none
  else none

/-- Scans a scalar in single quotes, after the first of them. -/
def scanSingle : List Char → Mark → (done : List Char) → Gap → Option ScalarText
  | [], _, _, _ => none
  | '\'' :: '\'' :: rest, mark, done, gap =>
    scanSingle rest mark.next.next ('\'' :: (gap.fill.reverse ++ done)) {}
  | c :: rest, mark, done, gap =>
    if isBlank c then scanSingle rest mark.next done (gap.addBlank c)
    else if isBreak c then scanSingle rest mark.nextLine done (gap.addBreak c)
    else if mark.column = 0 && startsDocumentMark (c :: rest) then none
    else
      let done := gap.fill.reverse ++ done
      if c = '\'' then some ⟨done.reverse, mark.next, ⟨rest, mark.next⟩, false⟩
      else scanSingle rest mark.next (c :: done) {}

/-- Scans a scalar in double quotes, after the first of them. -/
def scanDouble : List Char → Mark → (done : List Char) → Gap → Option ScalarText
  | [], _, _, _ => none
  | '\\' :: 'x' :: a :: b :: rest, mark, done, gap =>
    match escapeNumber? [a, b] with
    | none => none
    | some c => scanDouble rest (skip 4 mark) (c :: (gap.fill.reverse ++ done)) {}
  | '\\' :: 'u' :: a :: b :: c :: d :: rest, mark, done, gap =>
    match escapeNumber? [a, b, c, d] with
    | none => none
    | some c => scanDouble rest (skip 6 mark) (c :: (gap.fill.reverse ++ done)) {}
  | '\\' :: 'U' :: a :: b :: c :: d :: e :: f :: g :: h :: rest, mark, done, gap =>
    match escapeNumber? [a, b, c, d, e, f, g, h] with
    | none => none
    | some c => scanDouble rest (skip 10 mark) (c :: (gap.fill.reverse ++ done)) {}
  | '\\' :: c :: rest, mark, done, gap =>
    if isBreak c then
      scanDouble rest mark.next.nextLine (gap.fill.reverse ++ done) { broken := true }
    else
      match escapeLetter? c with
      | none => none
      | some c => scanDouble rest (skip 2 mark) (c :: (gap.fill.reverse ++ done)) {}
  | c :: rest, mark, done, gap =>
    if isBlank c then scanDouble rest mark.next done (gap.addBlank c)
    else if isBreak c then scanDouble rest mark.nextLine done (gap.addBreak c)
    else if mark.column = 0 && startsDocumentMark (c :: rest) then none
    else
      let done := gap.fill.reverse ++ done
      if c = '"' then some ⟨done.reverse, mark.next, ⟨rest, mark.next⟩, false⟩
      else scanDouble rest mark.next (c :: done) {}
where
  skip (count : Nat) (mark : Mark) : Mark :=
    ⟨mark.line, mark.column + count, mark.index + count⟩

end TreeWasm.Document
