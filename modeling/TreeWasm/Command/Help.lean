import TreeWasm.Command.Options

/-! # Help pages

What a command is for, how it is called, and which commands and options it knows, as shown on
request. Options are listed by name, with what they are for in a column of its own.
-/

namespace TreeWasm

structure DescribedOption where
  spec : OptionSpec
  /-- The kind of its value; a switch has none. -/
  kind : String := ""
  purpose : String
  /-- What it is when it is not given; empty if it is nothing then. -/
  initial : String := ""
  deriving DecidableEq, Repr

namespace DescribedOption

def head (option : DescribedOption) : String :=
  let start := match option.spec.letter with
    | some letter => s!"  -{letter}, --{option.spec.name}"
    | none => s!"      --{option.spec.name}"
  if option.kind = "" then start else s!"{start} {option.kind}"

def tail (option : DescribedOption) : String :=
  if option.initial = "" then option.purpose
  else
    let initial := Text.quote option.initial
    s!"{option.purpose} (default {initial})"

def lines (options : List DescribedOption) : List String :=
  let width := (options.map (fun option => option.head.length)).foldl max 0
  options.map (fun option => s!"{Text.padRight width option.head}   {option.tail}")

def common : List DescribedOption :=
  [⟨⟨"config", none, false⟩, "string", "read settings from a gbw.toml file", ""⟩,
    ⟨⟨"feature", some 'F', false⟩, "stringArray",
      "enable a feature, or disable it with no-<name> (-Fno-fold)", ""⟩,
    ⟨⟨"target", some 't', false⟩, "string", "WebAssembly feature level (mvp|v2)", ""⟩,
    ⟨⟨"verbose", some 'v', true⟩, "", "print each compilation phase", ""⟩,
    ⟨⟨"warn", some 'W', false⟩, "stringArray",
      "enable a warning, or disable it with no-<name> (-Wall, -Wno-dead-branch)", ""⟩]

def help (command : String) : DescribedOption :=
  ⟨⟨"help", some 'h', true⟩, "", s!"help for {command}", ""⟩

def building : List DescribedOption :=
  [⟨⟨"emit", none, false⟩, "string", "output form (wasm|sections)", "wasm"⟩,
    ⟨⟨"output", some 'o', false⟩, "string", "place the output into <file>", "a.wasm"⟩,
    ⟨⟨"source-map", none, false⟩, "string",
      "write the offset to source location table to <file>", ""⟩]

end DescribedOption

structure HelpPage where
  /-- The words that lead to the command. -/
  path : String
  about : String
  /-- What follows the path in a call; `none` if the command only holds others. -/
  call : Option String := none
  commands : List (String × String) := []
  own : List DescribedOption := []
  inherited : List DescribedOption := []
  deriving Repr

namespace HelpPage

/-- A part of a page under its title; a part without lines is left out. -/
def part (title : String) (lines : List String) : String :=
  if lines.isEmpty then "" else s!"\n{title}\n" ++ String.join (lines.map (· ++ "\n"))

def render (page : HelpPage) : String :=
  let usage := match page.call with
    | some call => s!"  {page.path}{call} [flags]"
    | none => s!"  {page.path} [command]"
  let commands := page.commands.map (fun (name, purpose) =>
    s!"  {Text.padRight 11 name} {purpose}")
  let closing := if page.commands.isEmpty then ""
    else s!"\nUse \"{page.path} [command] --help\" for more information about a command.\n"
  page.about ++ "\n" ++ part "Usage:" [usage] ++ part "Available Commands:" commands ++
    part "Flags:" (DescribedOption.lines page.own) ++
    part "Global Flags:" (DescribedOption.lines page.inherited) ++ closing

open DescribedOption

/-- The options of a page in the order of their names, the one for help among them. -/
def withHelp (command : String) (options : List DescribedOption) : List DescribedOption :=
  options.filter (fun option => option.spec.name < "help") ++ help command ::
    options.filter (fun option => "help" < option.spec.name)

def root : HelpPage where
  path := "gbw"
  about := "gbw lowers a type-checked program tree, written as YAML, into a\n" ++
    "WebAssembly binary module. Like stepping into a time machine, but the machine\n" ++
    "is a stack machine."
  commands :=
    [("build", "Compile a tree file to a .wasm module"),
      ("completion", "Generate the autocompletion script for the specified shell"),
      ("flags", "List the -F features and -W warnings with their current state"),
      ("help", "Help about any command"),
      ("run", "Compile and execute a module with wazero")]
  own := withHelp "gbw" common

def build : HelpPage where
  path := "gbw build"
  about := "Compile a tree file to a WebAssembly binary module.\n\nExample:\n" ++
    "  gbw build -o add.wasm add.yaml\n  gbw build --target mvp -Fno-fold -Wall add.yaml\n" ++
    "  gbw build --emit sections add.yaml"
  call := some " <tree.yaml>"
  own := withHelp "build" building
  inherited := common

def run : HelpPage where
  path := "gbw run"
  about := "Instantiate a module and call one of its exported functions.\n\n" ++
    "The input is either a tree file, compiled on the fly, or an already built\n" ++
    ".wasm module. Arguments are parsed according to the export's parameter\n" ++
    "types. Without an export name every exported function taking no\n" ++
    "parameters is called, in name order.\n\n" ++
    "Imported functions are provided by a host that prints each call and\nreturns zeros.\n\n" ++
    "Example:\n  gbw run add.yaml add 40 2\n  gbw run a.wasm"
  call := some " <tree.yaml|module.wasm> [export [args...]]"
  own := withHelp "run" []
  inherited := common

def flags : HelpPage where
  path := "gbw flags"
  about := "List the -F features and -W warnings with their current state"
  call := some ""
  own := withHelp "flags" []
  inherited := common

def help : HelpPage where
  path := "gbw help"
  about := "Help provides help for any command in the application.\n" ++
    "Simply type gbw help [path to command] for full details."
  call := some " [command]"
  own := withHelp "help" []
  inherited := common

def completion : HelpPage where
  path := "gbw completion"
  about := "Generate the autocompletion script for gbw for the specified shell.\n" ++
    "See each sub-command's help for details on how to use the generated script."
  commands := ["bash", "fish", "powershell", "zsh"].map (fun shell =>
    (shell, s!"Generate the autocompletion script for {shell}"))
  own := withHelp "completion" []
  inherited := common

def named? : String → Option HelpPage
  | "build" => some build
  | "run" => some run
  | "flags" => some flags
  | "help" => some help
  | "completion" => some completion
  | _ => none

end HelpPage

end TreeWasm
