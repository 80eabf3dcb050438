import TreeWasm.Document.Scan
import TreeWasm.Document.Tag

/-! # Document nodes

A document as nested nodes, each with its place. Tokens are read by recursive descent; the fuel
bounds the depth of the descent, and each step takes a token or returns.
-/

namespace TreeWasm.Document

/-- A document node. Lines and columns count from 1; an absent node stands nowhere. -/
inductive DocNode
  | absent
  | scalar (line column : Nat) (text : String) (tag : Tag)
  | sequence (line column : Nat) (items : List DocNode)
  | mapping (line column : Nat) (entries : List (DocNode × DocNode))
  deriving Repr

namespace DocNode

def line : DocNode → Nat
  | absent => 0
  | scalar line _ _ _ | sequence line _ _ | mapping line _ _ => line

def column : DocNode → Nat
  | absent => 0
  | scalar _ column _ _ | sequence _ column _ | mapping _ column _ => column

/-- The text of a scalar; collections have none. -/
def text : DocNode → String
  | scalar _ _ text _ => text
  | _ => ""

def tag? : DocNode → Option Tag
  | absent => none
  | scalar _ _ _ tag => some tag
  | sequence _ _ _ => some .sequence
  | mapping _ _ _ => some .mapping

def isAbsent : DocNode → Bool
  | absent => true
  | _ => false

def isScalar : DocNode → Bool
  | scalar _ _ _ _ => true
  | _ => false

def isSequence : DocNode → Bool
  | sequence _ _ _ => true
  | _ => false

def isMapping : DocNode → Bool
  | mapping _ _ _ => true
  | _ => false

def isNull (node : DocNode) : Bool := node.tag? = some .null

/-- A value that was left out. -/
def emptyAt (mark : Mark) : DocNode := scalar (mark.line + 1) (mark.column + 1) "" .null

end DocNode

/-- Where a node is read: this decides which tokens start it. -/
inductive Place
  | block | blockValue | flow
  deriving DecidableEq, Repr

/-- The first token; past the last one the text has ended. -/
def peek (tokens : List Token) : Token :=
  tokens.headD ⟨.streamEnd, .start, .start⟩

/-- Whether the next token ends a value between brackets. -/
def endsFlowValue (close : TokenKind) (tokens : List Token) : Bool :=
  (peek tokens).kind = .comma || (peek tokens).kind = close

/-- Whether a key or value of a block mapping was left out before the next token. -/
def endsBlockValue (tokens : List Token) : Bool :=
  [.key, .value, .blockEnd].contains (peek tokens).kind

mutual

def readNode : (fuel : Nat) → Place → List Token → Option (DocNode × List Token)
  | 0, _, _ => none
  | fuel + 1, place, tokens =>
    match tokens with
    | [] => none
    | token :: rest =>
      let line := token.start.line + 1
      let column := token.start.column + 1
      match token.kind with
      | .scalar text quoted =>
        some (.scalar line column text (if quoted then .text else tagOfPlain text), rest)
      | .openBracket => do
        let (items, rest) ← readFlowItems fuel true rest
        return (.sequence line column items, rest)
      | .openBrace => do
        let (entries, rest) ← readFlowEntries fuel true rest
        return (.mapping line column entries, rest)
      | .blockSequence =>
        if place = .flow then none
        else do
          let (items, rest) ← readBlockItems fuel rest
          return (.sequence line column items, rest)
      | .blockMapping =>
        if place = .flow then none
        else do
          let (entries, rest) ← readBlockEntries fuel rest
          return (.mapping line column entries, rest)
      | .dash =>
        if place = .blockValue then do
          let (items, rest) ← readDashes fuel (token :: rest)
          return (.sequence line column items, rest)
        else none
      | _ => none

def readBlockItems : (fuel : Nat) → List Token → Option (List DocNode × List Token)
  | 0, _ => none
  | fuel + 1, tokens =>
    match tokens with
    | [] => none
    | token :: rest =>
      match token.kind with
      | .blockEnd => some ([], rest)
      | .dash => do
        let (item, rest) ←
          if [.dash, .blockEnd].contains (peek rest).kind then
            some (DocNode.emptyAt token.stop, rest)
          else readNode fuel .block rest
        let (items, rest) ← readBlockItems fuel rest
        return (item :: items, rest)
      | _ => none

/-- Reads the items of a list that is indented as the mapping it is a value of. -/
def readDashes : (fuel : Nat) → List Token → Option (List DocNode × List Token)
  | 0, _ => none
  | fuel + 1, tokens =>
    let token := peek tokens
    let rest := tokens.drop 1
    if token.kind = .dash then do
      let (item, rest) ←
        if (peek rest).kind = .dash || endsBlockValue rest then
          some (DocNode.emptyAt token.stop, rest)
        else readNode fuel .block rest
      let (items, rest) ← readDashes fuel rest
      return (item :: items, rest)
    else some ([], tokens)

def readBlockEntries : (fuel : Nat) → List Token → Option (List (DocNode × DocNode) × List Token)
  | 0, _ => none
  | fuel + 1, tokens =>
    match tokens with
    | [] => none
    | token :: rest =>
      match token.kind with
      | .blockEnd => some ([], rest)
      | .key => do
        let (key, rest) ←
          if endsBlockValue rest then some (DocNode.emptyAt token.stop, rest)
          else readNode fuel .blockValue rest
        let mark := peek rest
        let (value, rest) ←
          if mark.kind = .value then
            if endsBlockValue (rest.drop 1) then
              some (DocNode.emptyAt mark.stop, rest.drop 1)
            else readNode fuel .blockValue (rest.drop 1)
          else some (DocNode.emptyAt mark.start, rest)
        let (entries, rest) ← readBlockEntries fuel rest
        return ((key, value) :: entries, rest)
      | _ => none

/-- Reads the items of a list in brackets; a comma comes before all but the first. An item with a
key is a mapping of one entry. -/
def readFlowItems : (fuel : Nat) → (first : Bool) → List Token → Option (List DocNode × List Token)
  | 0, _, _ => none
  | fuel + 1, first, tokens =>
    if (peek tokens).kind = .closeBracket then some ([], tokens.drop 1)
    else if !first && (peek tokens).kind ≠ .comma then none
    else
      let tokens := if first then tokens else tokens.drop 1
      let token := peek tokens
      if token.kind = .closeBracket then some ([], tokens.drop 1)
      else do
        let (item, rest) ←
          if token.kind = .key then readFlowPairItem fuel token.start (tokens.drop 1)
          else readNode fuel .flow tokens
        let (items, rest) ← readFlowItems fuel false rest
        return (item :: items, rest)

/-- Reads the value after a key between brackets, if there is one. A value left out stands at the
next token, but in a list at its colon if there is one. -/
def readFlowValue : (fuel : Nat) → (close : TokenKind) → List Token → Option (DocNode × List Token)
  | 0, _, _ => none
  | fuel + 1, close, tokens =>
    if (peek tokens).kind = .value then
      let rest := tokens.drop 1
      if endsFlowValue close rest then
        let place := if close = .closeBracket then peek tokens else peek rest
        some (.emptyAt place.start, rest)
      else readNode fuel .flow rest
    else some (.emptyAt (peek tokens).start, tokens)

/-- Reads what follows a key mark between brackets. In a list, the mark that stands for a key left
out is passed over. -/
def readFlowPair : (fuel : Nat) → (close : TokenKind) → List Token →
    Option ((DocNode × DocNode) × List Token)
  | 0, _, _ => none
  | fuel + 1, close, tokens => do
    let next := peek tokens
    let (key, rest) ←
      if next.kind = .value || endsFlowValue close tokens then
        if close = .closeBracket then some (DocNode.emptyAt next.stop, tokens.drop 1)
        else some (DocNode.emptyAt next.start, tokens)
      else readNode fuel .flow tokens
    let (value, rest) ← readFlowValue fuel close rest
    return ((key, value), rest)

/-- Reads an item of a list in brackets that is a mapping of one entry. -/
def readFlowPairItem : (fuel : Nat) → Mark → List Token → Option (DocNode × List Token)
  | 0, _, _ => none
  | fuel + 1, start, tokens => do
    let (entry, rest) ← readFlowPair fuel .closeBracket tokens
    return (.mapping (start.line + 1) (start.column + 1) [entry], rest)

/-- Reads an entry of a mapping in braces that has no value. -/
def readFlowKey : (fuel : Nat) → List Token → Option ((DocNode × DocNode) × List Token)
  | 0, _ => none
  | fuel + 1, tokens => do
    let (key, rest) ← readNode fuel .flow tokens
    return ((key, .emptyAt (peek rest).start), rest)

def readFlowEntries : (fuel : Nat) → (first : Bool) → List Token →
    Option (List (DocNode × DocNode) × List Token)
  | 0, _, _ => none
  | fuel + 1, first, tokens =>
    if (peek tokens).kind = .closeBrace then some ([], tokens.drop 1)
    else if !first && (peek tokens).kind ≠ .comma then none
    else
      let tokens := if first then tokens else tokens.drop 1
      let token := peek tokens
      if token.kind = .closeBrace then some ([], tokens.drop 1)
      else do
        let (entry, rest) ←
          if token.kind = .key then readFlowPair fuel .closeBrace (tokens.drop 1)
          else readFlowKey fuel tokens
        let (entries, rest) ← readFlowEntries fuel false rest
        return (entry :: entries, rest)

end

def readRoot (tokens : List Token) : Option (DocNode × List Token) :=
  let fuel := 4 * tokens.length + 4
  let token := peek tokens
  match token.kind with
  | .streamEnd => none
  | .documentStart =>
    let rest := tokens.drop 1
    if [.documentStart, .documentEnd, .streamEnd].contains (peek rest).kind then
      some (.emptyAt token.stop, rest)
    else readNode fuel .block rest
  | _ => readNode fuel .block tokens

/-- The root of the first document of a text; `none` if it is not well formed or has no document.
A fault after the root is one only if the token after the root cannot be shown without meeting
it. -/
def DocNode.ofChars? (text : List Char) : Option DocNode := do
  let chars ← documentChars? text
  let start := ScanState.start chars
  let count := chars.length + 4
  let (scanned, whole) := start.run count
  let tokens := scanned.linearize
  let (root, rest) ← readRoot tokens
  if whole || start.supplies count (tokens.length - rest.length) then some root else none

end TreeWasm.Document
