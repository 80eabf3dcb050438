import TreeWasm.Text.LowerCase
import TreeWasm.Text.Quoted
import TreeWasm.Text.Utf8

/-! # Options on a command line

Words of a command line that start with a dash are options; the others name the command and its
arguments, and may stand before, between and after the options. A long option is `--name value` or
`--name=value`. Short ones have one letter: `-o value`, `-ovalue` or `-o=value`, and switches may be
written together. After `--` every word is an argument.
-/

namespace TreeWasm

/-- An option that a command knows. A switch takes no value unless one is attached. -/
structure OptionSpec where
  name : String
  letter : Option Char
  switch : Bool := false
  deriving DecidableEq, Repr

/-- Why a command line is refused before anything is done. -/
inductive OptionFault
  | badForm (word : String)
  | unknownName (name : String)
  | nameNeedsValue (word : String)
  | unknownLetter (letter : Char) (letters : String)
  | letterNeedsValue (letter : Char) (letters : String)
  | notTruthValue (value : String) (spec : OptionSpec)
  | unknownCommand (word command : String) (suggestions : List String)
  | argumentCount (want got : Nat)
  | tooFewArguments (want got : Nat)
  deriving DecidableEq, Repr

def OptionSpec.usage (spec : OptionSpec) : String :=
  match spec.letter with
  | some letter => s!"-{letter}, --{spec.name}"
  | none => s!"--{spec.name}"

def OptionFault.message : OptionFault → String
  | badForm word => s!"bad flag syntax: {word}"
  | unknownName name => s!"unknown flag: --{name}"
  | nameNeedsValue word => s!"flag needs an argument: {word}"
  | unknownLetter letter letters =>
    s!"unknown shorthand flag: {Text.quoteChar letter} in -{letters}"
  | letterNeedsValue letter letters =>
    s!"flag needs an argument: {Text.quoteChar letter} in -{letters}"
  | notTruthValue value spec =>
    let value := Text.quote value
    let usage := Text.quote spec.usage
    s!"invalid argument {value} for {usage} flag: strconv.ParseBool: parsing {value}: " ++
      "invalid syntax"
  | unknownCommand word command suggestions =>
    let hint := if suggestions.isEmpty then ""
      else "\n\nDid you mean this?\n" ++ String.join (suggestions.map (fun s => s!"\t{s}\n"))
    s!"unknown command {Text.quote word} for {Text.quote command}" ++ hint
  | argumentCount want got => s!"accepts {want} arg(s), received {got}"
  | tooFewArguments want got => s!"requires at least {want} arg(s), only received {got}"

/-- A command line taken apart: the options given, in order, and the arguments. -/
structure Words where
  options : List (OptionSpec × String) := []
  arguments : List String := []
  deriving DecidableEq, Repr

namespace OptionSpec

def truthValue? (text : String) : Option Bool :=
  if ["1", "t", "T", "true", "TRUE", "True"].contains text then some true
  else if ["0", "f", "F", "false", "FALSE", "False"].contains text then some false
  else none

/-- One given option, if its value suits it. -/
def given (spec : OptionSpec) (value : String) : Except OptionFault (OptionSpec × String) :=
  if spec.switch && (truthValue? value).isNone then .error (.notTruthValue value spec)
  else .ok (spec, value)

/-- A value that stands apart: the next word, if there is one. -/
def nextWord (fault : OptionFault) : List String → Except OptionFault (String × List String)
  | [] => .error fault
  | word :: rest => .ok (word, rest)

/-- Reads a long option, and returns the words after it. -/
def readLong (specs : List OptionSpec) (word : String) (rest : List String) :
    Except OptionFault ((OptionSpec × String) × List String) :=
  let body := word.toList.drop 2
  match body with
  | [] | '-' :: _ | '=' :: _ => .error (.badForm word)
  | _ => do
    let name := String.ofList (body.takeWhile (· ≠ '='))
    let spec ← match specs.find? (fun spec => spec.name == name) with
      | some spec => .ok spec
      | none => .error (.unknownName name)
    let (value, rest) ← match body.dropWhile (· ≠ '=') with
      | _ :: value => .ok (String.ofList value, rest)
      | [] => if spec.switch then .ok ("true", rest) else nextWord (.nameNeedsValue word) rest
    return (← spec.given value, rest)

/-- The character that a fault shows for a letter: the one of its first byte. -/
def shownLetter (c : Char) : Char :=
  Char.ofNat ((Text.bytes c.toString).headD 0).toNat

/-- Reads letters written together, and returns the words after them. Letters that start with
`test.` are for test runners, and passed over. -/
def readLetters (specs : List OptionSpec) : List Char → List String →
    Except OptionFault (List (OptionSpec × String) × List String)
  | [], rest => .ok ([], rest)
  | letter :: others, rest =>
    let letters := String.ofList (letter :: others)
    if letters.startsWith "test." then .ok ([], rest)
    else
      match specs.find? (fun spec => spec.letter == some letter) with
      | none => .error (.unknownLetter (shownLetter letter) letters)
      | some spec =>
        match others with
        | '=' :: c :: value => do
          return ([← spec.given (String.ofList (c :: value))], rest)
        | _ =>
          if spec.switch then do
            let (options, rest) ← readLetters specs others rest
            return ((spec, "true") :: options, rest)
          else if others ≠ [] then do
            return ([← spec.given (String.ofList others)], rest)
          else do
            let (value, rest) ← nextWord (.letterNeedsValue letter letters) rest
            return ([← spec.given value], rest)

def isOption (word : String) : Bool :=
  word.startsWith "-" && word ≠ "-"

/-- Takes the words of a command line apart, at most `count` of them. -/
def readWords (specs : List OptionSpec) : (count : Nat) → Words → List String →
    Except OptionFault Words
  | 0, words, _ => .ok words
  | _, words, [] => .ok words
  | count + 1, words, word :: rest =>
    if !isOption word then
      readWords specs count { words with arguments := words.arguments ++ [word] } rest
    else if word = "--" then .ok { words with arguments := words.arguments ++ rest }
    else if word.startsWith "--" then do
      let (option, rest) ← readLong specs word rest
      readWords specs count { words with options := words.options ++ [option] } rest
    else do
      let (options, rest) ← readLetters specs (word.toList.drop 1) rest
      readWords specs count { words with options := words.options ++ options } rest

def read (specs : List OptionSpec) (words : List String) : Except OptionFault Words :=
  readWords specs words.length {} words

/-- Whether the word after an option is its value, as far as its form tells. Options that are not
known count as taking a value. -/
def takesNext (specs : List OptionSpec) (word : String) : Bool :=
  let isSwitch := fun (known : OptionSpec → Bool) =>
    (specs.find? known).elim false OptionSpec.switch
  !word.contains '=' &&
    if word.startsWith "--" then !isSwitch (fun spec => "--" ++ spec.name == word)
    else word.startsWith "-" && word.utf8ByteSize == 2 &&
      !isSwitch (fun spec => spec.letter.elim false (fun c => word == s!"-{c}"))

/-- The first word that is no option and no value of one. A value with nothing after it ends the
search. -/
def firstArgument? (specs : List OptionSpec) : List String → Option String
  | [] => none
  | word :: rest =>
    if word = "--" then none
    else if takesNext specs word then
      match rest with
      | _ :: next :: rest => firstArgument? specs (next :: rest)
      | _ => none
    else if word ≠ "" && !word.startsWith "-" then some word
    else firstArgument? specs rest

def eraseArgument (specs : List OptionSpec) (argument : String) : List String → List String
  | [] => []
  | word :: rest =>
    if word = "--" then word :: rest
    else if takesNext specs word then
      match rest with
      | value :: rest => word :: value :: eraseArgument specs argument rest
      | [] => [word]
    else if !word.startsWith "-" && word == argument then rest
    else word :: eraseArgument specs argument rest

end OptionSpec

/-! ## Suggestions -/

/-- One row of the table of edit distances: `left` stands before the row's first entry. -/
def editRow (c : UInt8) (left : Nat) : (above : List Nat) → List UInt8 → List Nat
  | diagonal :: up :: above, d :: ds =>
    let cost := if c = d then diagonal else 1 + min diagonal (min left up)
    cost :: editRow c cost (up :: above) ds
  | _, _ => []

/-- The least number of insertions, deletions and replacements of bytes from one word to
another. -/
def editDistance (source target : List UInt8) : Nat :=
  let first := List.range (target.length + 1)
  let last := source.foldl (fun row c =>
    let left := row.headD 0 + 1
    left :: editRow c left row target) first
  last.getLastD 0

/-- Whether a command is near enough to a word to be suggested. Case does not matter. -/
def isNear (word command : String) : Bool :=
  let word := Text.lower word
  let command := Text.lower command
  editDistance (Text.bytes word) (Text.bytes command) ≤ 2 || command.startsWith word

end TreeWasm
