/-! # Tokens of a document

A document is nested mappings and lists of scalars, laid out by indentation or by brackets. Its
tokens are the marks of this structure, and scalars with their text.
-/

namespace TreeWasm.Document

/-- A place in the text, counted from 0. -/
structure Mark where
  line : Nat
  column : Nat
  /-- How many characters come before. -/
  index : Nat
  deriving DecidableEq, Repr

namespace Mark

def start : Mark := ⟨0, 0, 0⟩

def next (m : Mark) : Mark := ⟨m.line, m.column + 1, m.index + 1⟩

def nextLine (m : Mark) : Mark := ⟨m.line + 1, 0, m.index + 1⟩

def past (m : Mark) (c : Char) : Mark := if c = '\n' then m.nextLine else m.next

end Mark

structure Cursor where
  rest : List Char
  mark : Mark
  deriving DecidableEq, Repr

inductive TokenKind
  | documentStart
  | documentEnd
  | blockSequence
  | blockMapping
  | blockEnd
  | openBracket
  | closeBracket
  | openBrace
  | closeBrace
  | dash
  | comma
  | key
  | value
  | scalar (text : String) (quoted : Bool)
  | streamEnd
  deriving DecidableEq, Repr

structure Token where
  kind : TokenKind
  start : Mark
  stop : Mark
  deriving DecidableEq, Repr

/-- Line breaks. A carriage return before a line feed is no break of its own. -/
def isBreak (c : Char) : Bool :=
  c = '\n' || c = '\r' || c.toNat = 0x85 || c.toNat = 0x2028 || c.toNat = 0x2029

def isBlank (c : Char) : Bool := c = ' ' || c = '\t'

/-- Whether a text starts with a blank or a break, or has ended. -/
def startsBlank : List Char → Bool
  | [] => true
  | c :: _ => isBlank c || isBreak c

/-- Whether a text starts with a mark between documents, at the start of a line. -/
def startsDocumentMark : List Char → Bool
  | '-' :: '-' :: '-' :: rest => startsBlank rest
  | '.' :: '.' :: '.' :: rest => startsBlank rest
  | _ => false

/-- Line breaks written in one way: a line feed. -/
def normalizeBreaks : List Char → List Char
  | [] => []
  | '\r' :: '\n' :: rest => '\n' :: normalizeBreaks rest
  | c :: rest =>
    (if c = '\r' || c.toNat = 0x85 then '\n' else c) :: normalizeBreaks rest

def isAllowed (c : Char) : Bool :=
  let n := c.toNat
  n = 0x09 || n = 0x0A || n = 0x0D || (0x20 ≤ n && n ≤ 0x7E) || n = 0x85 ||
    (0xA0 ≤ n && n ≤ 0xD7FF) || (0xE000 ≤ n && n ≤ 0xFFFD) || 0x10000 ≤ n

end TreeWasm.Document
