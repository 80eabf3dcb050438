import TreeWasm.Document.ScalarText

/-! # Scanning

From text to tokens. Outside brackets, deeper indentation opens a list or a mapping and less of it
closes it. A scalar or bracket becomes a key only when a colon follows on its line: the mark for it
is noted on the token where the key starts.

A text is scanned no further than its reader needs. To show one token, the scanner has to have the
two after it, and to know whether the token starts a key; a fault beyond that is not met.
-/

namespace TreeWasm.Document

/-- A token with the marks that belong before it. -/
structure Scanned where
  token : Token
  lead : List Token := []
  deriving Repr

/-- A token that may turn out to start a key. -/
structure PendingKey where
  required : Bool
  /-- The place of the token among the scanned ones. -/
  place : Nat
  mark : Mark
  deriving DecidableEq, Repr

structure ScanState where
  cursor : Cursor
  /-- The column of the innermost open block, and those around it. -/
  indent : Int
  indents : List Int
  keyAllowed : Bool
  /-- The pending keys, one for each level of brackets, innermost first. -/
  pending : List (Option PendingKey)
  /-- The scanned tokens, last first, and how many they are. -/
  tokens : List Scanned
  count : Nat
  deriving Repr

namespace ScanState

def start (text : List Char) : ScanState :=
  ⟨⟨text, .start⟩, -1, [], true, [none], [], 0⟩

def inFlow (s : ScanState) : Bool := !(s.pending.drop 1).isEmpty

def emit (s : ScanState) (token : Token) : ScanState :=
  { s with tokens := { token := token } :: s.tokens, count := s.count + 1 }

def emitHere (s : ScanState) (kind : TokenKind) : ScanState :=
  s.emit ⟨kind, s.cursor.mark, s.cursor.mark⟩

/-- Passes over characters that make up one token. -/
def advance (s : ScanState) (count : Nat) : ScanState :=
  let m := s.cursor.mark
  { s with cursor :=
      ⟨s.cursor.rest.drop count, ⟨m.line, m.column + count, m.index + count⟩⟩ }

def emitMark (s : ScanState) (kind : TokenKind) (count : Nat) : ScanState :=
  let after := s.advance count
  after.emit ⟨kind, s.cursor.mark, after.cursor.mark⟩

/-- Whether only blanks and line breaks come before a comment. -/
def leadsComment (text : List Char) : Bool :=
  (text.dropWhile (fun c => isBlank c || isBreak c)).head? = some '#'

/-- Passes over blanks, comments and line breaks. Outside brackets a tab may not stand where a key
may start, unless it is on the way from one comment to the next; after a line break a key may
start. -/
def skipGap (flow : Bool) : List Char → Mark → (keyAllowed comment noted : Bool) → Cursor × Bool
  | [], mark, keyAllowed, _, _ => (⟨[], mark⟩, keyAllowed)
  | c :: rest, mark, keyAllowed, comment, noted =>
    if isBreak c then skipGap flow rest mark.nextLine (keyAllowed || !flow) false noted
    else if comment || c = '#' then skipGap flow rest mark.next keyAllowed true true
    else if c = ' ' || (c = '\t' && (flow || !keyAllowed || (noted && leadsComment rest))) then
      skipGap flow rest mark.next keyAllowed false noted
    else (⟨c :: rest, mark⟩, keyAllowed)

def unrollFrom (column : Int) (mark : Mark) (s : ScanState) : Int → List Int → ScanState
  | indent, [] => { s with indent := indent, indents := [] }
  | indent, outer :: rest =>
    if column < indent then
      unrollFrom column mark (s.emit ⟨.blockEnd, mark, mark⟩) outer rest
    else { s with indent := indent, indents := outer :: rest }

/-- Closes the blocks that are indented more than a column; they end at the given place. -/
def unroll (s : ScanState) (column : Int) (mark : Mark) : ScanState :=
  if s.inFlow then s else unrollFrom column mark s s.indent s.indents

/-- How deep blocks may nest, and brackets. -/
def deepest : Nat := 10000

/-- Opens a block at a column, if it is indented more than the blocks around, and tells whether it
did. -/
def roll (s : ScanState) (column : Nat) : Option (ScanState × Bool) :=
  if s.inFlow || column ≤ s.indent then some (s, false)
  else if deepest ≤ s.indents.length then none
  else some ({ s with indent := column, indents := s.indent :: s.indents }, true)

def rollHere (s : ScanState) (kind : TokenKind) : Option ScanState :=
  (s.roll s.cursor.mark.column).map (fun (s, opened) => if opened then s.emitHere kind else s)

/-- Gives up the pending key of this level; one that had to be a key is a fault. -/
def dropPending (s : ScanState) : Option ScanState :=
  match s.pending with
  | some key :: rest => if key.required then none else some { s with pending := none :: rest }
  | _ => some s

def notePending (s : ScanState) : Option ScanState :=
  if !s.keyAllowed then some s
  else
    let key : PendingKey :=
      ⟨!s.inFlow && s.indent = s.cursor.mark.column, s.count, s.cursor.mark⟩
    s.dropPending.map (fun s => { s with pending := some key :: s.pending.drop 1 })

/-- Whether a pending key can still be one here: it stands on this line, at most 1024 characters
back. A key that had to be one and cannot is a fault. -/
def keyHolds (s : ScanState) (key : PendingKey) : Option Bool :=
  if key.mark.line < s.cursor.mark.line ∨ key.mark.index + 1024 < s.cursor.mark.index then
    if key.required then none else some false
  else some true

/-- The pending key of this level, if a colon here makes it a key. -/
def validPending (s : ScanState) : Option (Option PendingKey) :=
  match s.pending with
  | some key :: _ => (s.keyHolds key).map (fun holds => if holds then some key else none)
  | _ => some none

def putLead (s : ScanState) (place : Nat) (lead : List Token) : ScanState :=
  let add := fun (t : Scanned) => { t with lead := lead ++ t.lead }
  { s with tokens := s.tokens.modify (s.count - 1 - place) add }

def fetchValue (s : ScanState) : Option ScanState := do
  match ← s.validPending with
  | some key =>
    let keyToken : Token := ⟨.key, key.mark, key.mark⟩
    let s := { s with pending := none :: s.pending.drop 1, keyAllowed := false }
    let (s, opened) ← s.roll key.mark.column
    let start : List Token := if opened then [⟨.blockMapping, key.mark, key.mark⟩] else []
    return (s.putLead key.place (start ++ [keyToken])).emitMark .value 1
  | none =>
    if s.inFlow then
      return { s with keyAllowed := false, pending := none :: s.pending.drop 1 }.emitMark .value 1
    else if !s.keyAllowed then none
    else
      let s ← { s with pending := none :: s.pending.drop 1 }.rollHere .blockMapping
      return { s with keyAllowed := true }.emitMark .value 1

def fetchDash (s : ScanState) : Option ScanState := do
  let s ←
    if s.inFlow then some s
    else if s.keyAllowed then s.rollHere .blockSequence
    else none
  let s ← s.dropPending
  return { s with keyAllowed := true }.emitMark .dash 1

def fetchKey (s : ScanState) : Option ScanState := do
  let s ←
    if s.inFlow then some s
    else if s.keyAllowed then s.rollHere .blockMapping
    else none
  let s ← s.dropPending
  return { s with keyAllowed := !s.inFlow }.emitMark .key 1

def fetchOpen (s : ScanState) (kind : TokenKind) : Option ScanState := do
  let s ← s.notePending
  if deepest < s.pending.length then none
  else some ({ s with pending := none :: s.pending, keyAllowed := true }.emitMark kind 1)

def fetchClose (s : ScanState) (kind : TokenKind) : Option ScanState := do
  let s ← s.dropPending
  let pending := if s.inFlow then s.pending.drop 1 else s.pending
  return { s with pending := pending, keyAllowed := false }.emitMark kind 1

def fetchComma (s : ScanState) : Option ScanState := do
  let s ← s.dropPending
  return { s with keyAllowed := true }.emitMark .comma 1

def fetchDocumentMark (s : ScanState) (kind : TokenKind) : Option ScanState := do
  let s ← (s.unroll (-1) s.cursor.mark).dropPending
  return { s with keyAllowed := false }.emitMark kind 3

def emitScalar (s : ScanState) (scalar : ScalarText) (quoted : Bool) : ScanState :=
  let token : Token := ⟨.scalar (String.ofList scalar.text) quoted, s.cursor.mark, scalar.stop⟩
  { s.emit token with cursor := scalar.after, keyAllowed := scalar.broken }

def fetchQuoted (s : ScanState)
    (scan : List Char → Mark → List Char → Gap → Option ScalarText) : Option ScanState := do
  let s ← s.notePending
  let scalar ← scan (s.cursor.rest.drop 1) s.cursor.mark.next [] {}
  return s.emitScalar scalar true

def fetchPlain (s : ScanState) : Option ScanState := do
  let s ← s.notePending
  let scalar ← scanPlain s.inFlow (s.indent + 1) s.cursor.rest s.cursor.mark [] {} s.cursor.mark
  return s.emitScalar scalar false

/-- Characters that cannot start a plain scalar, or only before a character that is no blank. -/
def isIndicator (c : Char) : Bool :=
  ['-', '?', ':', ',', '[', ']', '{', '}', '#', '&', '*', '!', '|', '>', '\'', '"', '%', '@',
    '\x60'].contains c

def fetchFrom (s : ScanState) (c : Char) (rest : List Char) : Option ScanState :=
  if s.cursor.mark.column = 0 && startsDocumentMark (c :: rest) then
    s.fetchDocumentMark (if c = '-' then .documentStart else .documentEnd)
  else if c = '[' then s.fetchOpen .openBracket
  else if c = '{' then s.fetchOpen .openBrace
  else if c = ']' then s.fetchClose .closeBracket
  else if c = '}' then s.fetchClose .closeBrace
  else if c = ',' then s.fetchComma
  else if c = '-' && startsBlank rest then s.fetchDash
  else if c = '?' && (s.inFlow || startsBlank rest) then s.fetchKey
  else if c = ':' && (s.inFlow || startsBlank rest) then s.fetchValue
  else if c = '\'' then s.fetchQuoted scanSingle
  else if c = '"' then s.fetchQuoted scanDouble
  else if !isIndicator c && !isBlank c then s.fetchPlain
  else if c = '-' && !isBlank (rest.headD 'x') then s.fetchPlain
  else if !s.inFlow && (c = '?' || c = ':') && !startsBlank rest then s.fetchPlain
  else none

/-- Ends all blocks at the end of the text. -/
def finish (s : ScanState) : Option ScanState := do
  let m := s.cursor.mark
  let mark := if m.column = 0 then m else m.nextLine
  let s := { s with cursor := ⟨[], mark⟩ }
  let s ← (s.unroll (-1) mark).dropPending
  return s.emitHere .streamEnd

/-- Passes over a comment on the line of the last token. A dash, and a scalar after which a line
break was passed, have none. -/
def skipLineComment (s : ScanState) : ScanState :=
  let rest := s.cursor.rest
  let bare := match s.tokens.head?.map (fun t => t.token.kind) with
    | none | some .dash => true
    | some (.scalar _ _) => s.keyAllowed
    | _ => false
  if !bare && (rest.dropWhile isBlank).head? = some '#' then
    s.advance (rest.takeWhile (fun c => !isBreak c)).length
  else s

/-- Scans the next token, and the ends of blocks before it; past the end of the text, one more end
of it. -/
def fetch (s : ScanState) : Option ScanState := do
  let mark := s.cursor.mark
  let (cursor, keyAllowed) :=
    skipGap s.inFlow s.cursor.rest mark s.keyAllowed false false
  let s := { s with cursor := cursor, keyAllowed := keyAllowed }.unroll cursor.mark.column mark
  match cursor.rest with
  | [] => s.finish
  | c :: rest => return (← s.fetchFrom c rest).skipLineComment

/-- Scans tokens up to the end of the text or the first fault, at most `count` of them. Tells
whether the end was reached. -/
def run : (count : Nat) → ScanState → ScanState × Bool
  | 0, s => (s, false)
  | count + 1, s =>
    match s.fetch with
    | none => (s, false)
    | some s => if endsText s then (s, true) else run count s
where
  endsText (s : ScanState) : Bool :=
    s.tokens.head?.any (fun t => t.token.kind = .streamEnd)

/-- The tokens in order, each after the marks that lead it. -/
def linearize (s : ScanState) : List Token :=
  s.tokens.foldl (fun after t => t.lead ++ t.token :: after) []

/-- How many tokens come before one of the scanned ones, with the marks that lead them. -/
def countBefore (s : ScanState) (place : Nat) : Nat :=
  (s.tokens.drop (s.count - place)).foldl (fun n t => n + t.lead.length + 1) 0

/-- Whether the token at a position is ready to be shown: two more are there, and it is no pending
key. -/
def isReady (s : ScanState) (position : Nat) : Option Bool :=
  if s.countBefore s.count < position + 3 then some false
  else
    match (s.pending.filterMap id).find? (fun key => s.countBefore key.place = position) with
    | none => some true
    | some key => (s.keyHolds key).map (!·)

/-- Scans on, by at most `count` tokens, until the token at a position is ready. -/
def supply (position : Nat) : (count : Nat) → ScanState → Option ScanState
  | 0, _ => none
  | count + 1, s => do
    if ← s.isReady position then return s else supply position count (← s.fetch)

/-- Whether the tokens up to a position can be shown one after the other without a fault. -/
def supplies (count : Nat) (s : ScanState) (position : Nat) : Bool :=
  ((List.range (position + 1)).foldlM (fun s position => supply position count s) s).isSome

end ScanState

/-- The characters of a document in which line breaks are written in one way, without the mark for
the order of bytes; `none` if one is not allowed. -/
def documentChars? (text : List Char) : Option (List Char) :=
  let chars := normalizeBreaks text
  let chars := if chars.head? = some '\ufeff' then chars.drop 1 else chars
  if chars.all isAllowed then some chars else none

end TreeWasm.Document
