import TreeWasm.Command.Help
import TreeWasm.Command.Host
import TreeWasm.Command.Interface
import TreeWasm.Lowering.Listing
import TreeWasm.Lowering.SourceMap
import TreeWasm.Program.Reader
import TreeWasm.Program.Typing
import TreeWasm.Settings.File

/-! # Commands

`build` compiles a program to a file or lists its sections, `run` looks up an exported function and
reads the arguments of a call, `flags` only reads the settings. Settings are layered: the initial
ones, then a settings file, then the target, then the flags for warnings and features.
-/

namespace TreeWasm

/-- The parts of a command's activity that write files. -/
inductive Artifact
  | output | sourceMap
  deriving DecidableEq, Repr

def Artifact.name : Artifact → String
  | output => "output file"
  | sourceMap => "source map"

inductive CommandFault
  | options (fault : OptionFault)
  | settings (fault : SettingsFault)
  | settingsFile (fault : SettingsFileFault)
  | outputForm (name : String)
  | unreadable (path reason : String)
  | unwritable (artifact : Artifact) (reason : String)
  /-- The file is no document of the expected kind. -/
  | document
  | program (sources : Sources) (failure : Failure)
  | invalidModule
  | noFunction (name : String)
  | argumentCount (name : String) (want got : Nat)
  | argument (place : Nat) (name : String) (fault : ValueFault)
  /-- A function is ready to be called, and there is no machine to run it. -/
  | noMachine (name : String)
  deriving DecidableEq, Repr

namespace CommandFault

def message : CommandFault → String
  | options fault => fault.message
  | settings fault => fault.message
  | settingsFile fault => fault.message
  | outputForm name => s!"unsupported output form '{name}'. Supported: 'wasm', 'sections'"
  | unreadable path reason => s!"could not read file '{path}': {reason}"
  | unwritable artifact reason => s!"failed to write {artifact.name}: {reason}"
  | document => "malformed tree file"
  | program sources failure => failure.describe sources
  | invalidModule => "invalid module"
  | noFunction name => s!"module has no exported function '{name}'"
  | argumentCount name want got => s!"'{name}' takes {want} argument(s), got {got}"
  | argument place name fault => s!"argument {place} of '{name}': {fault.message}"
  | noMachine name => s!"no machine to run '{name}'"

def report : CommandFault → String
  | program sources failure => failure.report sources
  | fault => reportPlain fault.message

end CommandFault

/-- What is known of a command line once its options are read. -/
structure CommandOptions where
  target : String := ""
  settingsPath : String := ""
  warnings : List String := []
  features : List String := []
  output : String := "a.wasm"
  sourceMap : String := ""
  form : String := "wasm"
  help : Bool := false
  deriving DecidableEq, Repr

namespace CommandOptions

/-- The options of every command, the one for help apart: a command is looked up before it. -/
def common : List OptionSpec := DescribedOption.common.map DescribedOption.spec

def building : List OptionSpec :=
  common ++ DescribedOption.building.map DescribedOption.spec

/-- Takes in one given option; lists grow, anything else is replaced. -/
def set (options : CommandOptions) : OptionSpec × String → CommandOptions
  | (spec, value) =>
    match spec.name with
    | "target" => { options with target := value }
    | "config" => { options with settingsPath := value }
    | "warn" => { options with warnings := options.warnings ++ [value] }
    | "feature" => { options with features := options.features ++ [value] }
    | "output" => { options with output := value }
    | "source-map" => { options with sourceMap := value }
    | "emit" => { options with form := value }
    | "help" => { options with help := OptionSpec.truthValue? value == some true }
    | _ => options

def ofWords (words : Words) : CommandOptions :=
  words.options.foldl set {}

end CommandOptions

/-- Settings from all layers; the settings file has been read if one is named. -/
def CommandOptions.settings (options : CommandOptions) (file : Except String String) :
    Except CommandFault Settings := do
  let s ←
    if options.settingsPath = "" then .ok Settings.initial
    else
      match Settings.initial.load options.settingsPath file with
      | (s, none) => .ok s
      | (_, some fault) => .error (.settingsFile fault)
  let s ← if options.target = "" then .ok s
    else (s.setTarget options.target).mapError .settings
  let flags := options.warnings.map ("W" ++ ·) ++ options.features.map ("F" ++ ·)
  match s.process flags with
  | (s, none) => .ok s
  | (_, some fault) => .error (.settings fault)

/-- A program compiled from the content of a file: the outcome, and the warnings given until
then. -/
def compileFile (settings : Settings) (form : OutputForm) (path : String) (content : List UInt8) :
    Except CommandFault (Compiled × Output) × String :=
  let sources : Sources := [⟨path, Text.ofBytes content⟩]
  match String.fromUTF8? ⟨content.toArray⟩ with
  | none => (.error .document, "")
  | some text =>
    match Program.ofText 0 text with
    | .error .document => (.error .document, "")
    | .error (.failure failure) => (.error (.program sources failure), "")
    | .ok program =>
      match program.check with
      | .error failure => (.error (.program sources failure), "")
      | .ok checked =>
        let (result, warnings) := checked.compileTo settings form
        (result.mapError (.program sources),
          String.join (warnings.map (Diagnostic.report sources)))

def readArguments (name : String) : (place : Nat) → List ValueKind → List String →
    Except CommandFault (List UInt64)
  | place, kind :: kinds, text :: texts => do
    let value ← (kind.read text).mapError (.argument place name)
    let values ← readArguments name (place + 1) kinds texts
    return value :: values
  | _, _, _ => .ok []

def prepareCall (functions : List (String × List ValueKind)) (name : String)
    (arguments : List String) : Except CommandFault (List UInt64) :=
  match functions.lookup name with
  | none => .error (.noFunction name)
  | some params =>
    if arguments.length ≠ params.length then
      .error (.argumentCount name params.length arguments.length)
    else readArguments name 1 params arguments

def isBinary (bytes : List UInt8) : Bool :=
  bytes.take 4 == [0x00, 0x61, 0x73, 0x6D]

namespace Command

variable {m : Type → Type} [Monad m]

abbrev Run (m : Type → Type) := ExceptT CommandFault m

def liftExcept {α : Type} (result : Except CommandFault α) : Run m α :=
  ExceptT.mk (pure result)

def readFile (host : Host m) (path : String) : Run m (List UInt8) := do
  match ← host.read path with
  | .ok content => return content
  | .error reason => throw (.unreadable path reason)

def writeFile (host : Host m) (artifact : Artifact) (path : String) (content : List UInt8) :
    Run m Unit := do
  match ← host.write path content with
  | .ok () => return ()
  | .error reason => throw (.unwritable artifact reason)

def settings (host : Host m) (options : CommandOptions) : Run m Settings := do
  let file ←
    if options.settingsPath = "" then pure (.ok "")
    else pure ((← host.read options.settingsPath).map Text.ofBytes)
  liftExcept (options.settings file)

def compile (host : Host m) (settings : Settings) (form : OutputForm) (path : String) :
    Run m (Compiled × Output) := do
  let content ← readFile host path
  let (result, warnings) := compileFile settings form path content
  host.warn warnings
  liftExcept result

def build (host : Host m) (options : CommandOptions) (path : String) : Run m Unit := do
  let s ← settings host options
  let s := if options.sourceMap = "" then s else s.setFeature .sourceMap true
  let form ←
    if options.form = "wasm" then pure OutputForm.binary
    else if options.form = "sections" then pure OutputForm.listing
    else throw (.outputForm options.form)
  let (compiled, output) ← compile host s form path
  match output with
  | .listing text => host.print text
  | .binary bytes =>
    writeFile host .output options.output bytes
    if options.sourceMap ≠ "" then
      let map := TreeWasm.sourceMap [⟨path, ""⟩] compiled.marks
      writeFile host .sourceMap options.sourceMap (Text.bytes map)

def run (host : Host m) (options : CommandOptions) (path : String) (call : List String) :
    Run m Unit := do
  let s ← settings host options
  let content ← readFile host path
  let bytes ←
    if isBinary content then pure content
    else do
      let (compiled, _) ← compile host s .binary path
      pure compiled.encoded.bytes
  let functions ← match exportedFunctions? bytes with
    | some functions => pure functions
    | none => throw .invalidModule
  match call with
  | name :: arguments =>
    let _ ← liftExcept (prepareCall functions name arguments)
    throw (.noMachine name)
  | [] =>
    match functions.find? (fun (_, params) => params.isEmpty) with
    | some (name, _) => throw (.noMachine name)
    | none => return ()

/-- Commands by name, as suggested for a misspelt one. -/
def names : List String := ["build", "run", "flags", "completion"]

/-- The options and arguments among words. Every command knows the option for help. -/
def readWords (specs : List OptionSpec) (words : List String) :
    Run m (CommandOptions × List String) := do
  let specs := (DescribedOption.help "").spec :: specs
  let words ← liftExcept ((OptionSpec.read specs words).mapError CommandFault.options)
  return (CommandOptions.ofWords words, words.arguments)

def showPage (host : Host m) (page : HelpPage) : Run m Unit := host.print page.render

def help (host : Host m) (names : List String) : Run m Unit :=
  match names with
  | [] => showPage host .root
  | name :: _ => (HelpPage.named? name).elim (pure ()) (showPage host)

def carryOut (host : Host m) (words : List String) : Run m Unit := do
  match OptionSpec.firstArgument? CommandOptions.common words with
  | none =>
    let _ ← readWords CommandOptions.common words
    showPage host .root
  | some name =>
    let rest := OptionSpec.eraseArgument CommandOptions.common name words
    match name with
    | "build" =>
      let (options, arguments) ← readWords CommandOptions.building rest
      if options.help then showPage host .build
      else
        match arguments with
        | [path] => build host options path
        | _ => throw (.options (.argumentCount 1 arguments.length))
    | "run" =>
      let (options, arguments) ← readWords CommandOptions.common rest
      if options.help then showPage host .run
      else
        match arguments with
        | path :: call => run host options path call
        | [] => throw (.options (.tooFewArguments 1 0))
    | "flags" =>
      let (options, arguments) ← readWords CommandOptions.common rest
      if options.help then showPage host .flags
      else
        match arguments with
        | [] =>
          let _ ← settings host options
          return ()
        | word :: _ => throw (.options (.unknownCommand word "gbw flags" []))
    | "help" =>
      let (options, arguments) ← readWords CommandOptions.common rest
      if options.help then showPage host .help else help host arguments
    | "completion" =>
      let (_, arguments) ← readWords CommandOptions.common rest
      if arguments.isEmpty then showPage host .completion
    | _ => throw (.options (.unknownCommand name "gbw" (names.filter (isNear name))))

def outcome (host : Host m) (words : List String) : m (Option CommandFault) := do
  match ← (carryOut host words).run with
  | .ok () => return none
  | .error fault => return some fault

end Command

end TreeWasm
