/-! # Settings

The target level, the features and the warnings of a compilation, and the flags that change them.
A flag names a warning or a feature and switches it on or off; catch-all flags switch many
warnings at once and are applied before the others, so that a specific flag has the last word.
-/

namespace TreeWasm

/-- The instruction set to aim at: the first one, or the one with sign extension and several
results. -/
inductive Target
  | mvp | v2
  deriving DecidableEq, Repr

inductive Feature
  | fold | sourceMap | exportMemory | signExt | multiValue | startSection
  deriving DecidableEq, Repr

inductive Warning
  | unreachableCode | deadBranch | pedantic | extra
  deriving DecidableEq, Repr

namespace Target

def name : Target → String
  | mvp => "mvp"
  | v2 => "v2"

/-- The target of a name; the empty name stands for the newest. -/
def ofName? (name : String) : Option Target :=
  if name = "" ∨ name = "v2" then some v2 else if name = "mvp" then some mvp else none

end Target

namespace Feature

def all : List Feature := [fold, sourceMap, exportMemory, signExt, multiValue, startSection]

def name : Feature → String
  | fold => "fold"
  | sourceMap => "source-map"
  | exportMemory => "export-memory"
  | signExt => "sign-ext"
  | multiValue => "multi-value"
  | startSection => "start-section"

def ofName? (name : String) : Option Feature :=
  all.find? (fun f => f.name == name)

def initially : Feature → Bool
  | sourceMap | exportMemory => false
  | _ => true

end Feature

namespace Warning

def all : List Warning := [unreachableCode, deadBranch, pedantic, extra]

def name : Warning → String
  | unreachableCode => "unreachable-code"
  | deadBranch => "dead-branch"
  | pedantic => "pedantic"
  | extra => "extra"

def ofName? (name : String) : Option Warning :=
  all.find? (fun w => w.name == name)

def initially : Warning → Bool
  | unreachableCode | deadBranch => true
  | _ => false

end Warning

structure Settings where
  target : Target
  /-- The greatest number of memory pages; 0 sets no limit. -/
  maxPages : Int64
  features : Feature → Bool
  warnings : Warning → Bool

inductive SettingsFault
  | unsupportedTarget (name : String)
  | unknownWarning (name : String)
  | unknownFeature (name : String)
  deriving DecidableEq, Repr

def SettingsFault.message : SettingsFault → String
  | unsupportedTarget name => s!"unsupported target '{name}'. Supported: 'mvp', 'v2'"
  | unknownWarning name => s!"unknown warning '{name}'"
  | unknownFeature name => s!"unknown feature '{name}'"

inductive Flag
  /-- All warnings but the pedantic one. -/
  | allWarnings (on : Bool)
  | everyWarning
  | warning (which : Warning) (on : Bool)
  | feature (which : Feature) (on : Bool)
  deriving DecidableEq, Repr

namespace Flag

/-- A text without its leading part, if it starts with it. -/
def strip (lead text : String) : Option String :=
  if text.startsWith lead then some (text.drop lead.length).toString else none

def dropDash (text : String) : String :=
  (strip "-" text).getD text

def ofWarningName (name : String) (on : Bool) : Except SettingsFault Flag :=
  if name = "all" then .ok (allWarnings on)
  else if name = "pedantic" then .ok everyWarning
  else
    match Warning.ofName? name with
    | some w => .ok (warning w on)
    | none => .error (.unknownWarning name)

def ofFeatureName (name : String) (on : Bool) : Except SettingsFault Flag :=
  match Feature.ofName? name with
  | some f => .ok (feature f on)
  | none => .error (.unknownFeature name)

/-- Reads a flag: `W` or `F` and a name, with `no-` before the name to switch off. A leading dash
is passed over, and a flag without either letter names a warning. -/
def ofText (text : String) : Except SettingsFault Flag :=
  let text := dropDash text
  match strip "Wno-" text, strip "Fno-" text, strip "W" text, strip "F" text with
  | some name, _, _, _ => ofWarningName name false
  | none, some name, _, _ => ofFeatureName name false
  | none, none, some name, _ => ofWarningName name true
  | none, none, none, some name => ofFeatureName name true
  | none, none, none, none => ofWarningName text true

/-- Whether a text is a catch-all that is applied first. -/
def isEarly (text : String) : Bool :=
  ["Wall", "Wno-all", "pedantic", "Wpedantic"].contains (dropDash text)

end Flag

namespace Settings

def initial : Settings := ⟨.v2, 0, Feature.initially, Warning.initially⟩

def setFeature (s : Settings) (which : Feature) (on : Bool) : Settings :=
  { s with features := fun f => if f = which then on else s.features f }

def setWarning (s : Settings) (which : Warning) (on : Bool) : Settings :=
  { s with warnings := fun w => if w = which then on else s.warnings w }

/-- Selects a target together with the features that belong to it. -/
def setTarget (s : Settings) (name : String) : Except SettingsFault Settings :=
  match Target.ofName? name with
  | none => .error (.unsupportedTarget name)
  | some target =>
    let modern := target = .v2
    .ok ({ s with target := target }.setFeature .signExt modern |>.setFeature .multiValue modern)

def apply (s : Settings) : Flag → Settings
  | .allWarnings on =>
    { s with warnings := fun w => if w = .pedantic then s.warnings w else on }
  | .everyWarning => { s with warnings := fun _ => true }
  | .warning which on => s.setWarning which on
  | .feature which on => s.setFeature which on

/-- Applies flags in order, up to the first that cannot be read. -/
def applyAll (s : Settings) : List String → Settings × Option SettingsFault
  | [] => (s, none)
  | text :: rest =>
    match Flag.ofText text with
    | .ok flag => (s.apply flag).applyAll rest
    | .error fault => (s, some fault)

/-- Applies flags, the catch-alls first. Flags before a faulty one stay applied. -/
def process (s : Settings) (flags : List String) : Settings × Option SettingsFault :=
  s.applyAll (flags.filter Flag.isEarly ++ flags.filter (fun text => !Flag.isEarly text))

end Settings

end TreeWasm
