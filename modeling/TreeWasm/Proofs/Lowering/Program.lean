import TreeWasm.Lowering.Module
import TreeWasm.Program.Reader
import TreeWasm.Program.Typing
import TreeWasm.Proofs.Steps

/-! # Accepted, lowered and compiled programs

A text is accepted if it reads as a program and the program passes its check. To compile a program is
to lower its root from a start that depends on the types of the program only, and to encode what comes
out.
-/

namespace TreeWasm

open Wasm

namespace TypeTable

variable {table table' : TypeTable}

theorem text_congr (h : table.aggregates = table'.aggregates) : table.text = table'.text := by
  have haggregate (depth : Nat) : table.aggregateText depth = table'.aggregateText depth := by
    induction depth with
    | zero => rfl
    | succ depth ih =>
      funext id
      simp only [aggregateText, get?, h, ih]
  funext t
  rw [text, text, h, haggregate]

theorem layout_congr (h : table.aggregates = table'.aggregates) : table.layout = table'.layout := by
  have htext := text_congr h
  have haggregate (depth : Nat) : Layout.ofAggregate table depth = Layout.ofAggregate table' depth := by
    induction depth with
    | zero =>
      funext id
      rw [Layout.ofAggregate, Layout.ofAggregate, htext]
    | succ depth ih =>
      funext id
      simp only [Layout.ofAggregate, get?, h, htext, ih]
  funext t
  rw [layout, layout, h, htext, haggregate]

end TypeTable

namespace Program

variable {chars : List Char} {program : Program} {settings : Settings}

/-- The checked program of a text. -/
def accepted? (text : String) : Option Program := do
  let program ← (Program.ofText 0 text).toOption
  program.check.toOption

theorem ofText_of_toList (file : Int) (text : String) (h : text.toList = chars) :
    ofText file text = ofChars file chars :=
  congrArg (ofChars file) h

theorem accepted?_of_toList (text : String) (h : text.toList = chars) :
    accepted? text = (ofChars 0 chars).toOption.bind (fun program => program.check.toOption) := by
  rw [accepted?, ofText_of_toList 0 text h]
  rfl

theorem eq_ok_of_toOption {ε α : Type} {x : Except ε α} {a : α} (h : x.toOption = some a) : x = .ok a := by
  cases x with
  | ok b =>
    cases h
    rfl
  | error => cases h

theorem accepted?_eq_some {text : String} (h : accepted? text = some program) :
    ∃ source, Program.ofText 0 text = .ok source ∧ source.check = .ok program := by
  obtain ⟨source, hsource, hprogram⟩ := Option.bind_eq_some_iff.mp h
  exact ⟨source, eq_ok_of_toOption hsource, eq_ok_of_toOption hprogram⟩

/-- The types known when lowering starts: those of the program, and that of addresses. -/
def types (program : Program) : TypeTable := (program.table.pointerTo (.builtin .u8)).1

theorem layout_types (program : Program) : program.types.layout = program.table.layout :=
  TypeTable.layout_congr rfl

/-- The layout of addresses. -/
def address (program : Program) : Layout :=
  .scalar ⟨.occurrence program.table.occurrence,
    program.types.text (program.table.pointerTo (.builtin .u8)).2⟩ .pointer

def context (settings : Settings) (program : Program) : LowerContext :=
  { settings := settings, address := program.address }

/-- The state in which lowering starts. -/
def start (program : Program) : ModuleState :=
  ⟨.empty, [],
    ⟨program.types, .empty program.address, [Level.empty], .ofParams [], .empty, [], false, [], []⟩⟩

/-- The outcome of lowering and the state at its end. -/
def lower (settings : Settings) (program : Program) : Except Failure Unit × ModuleState :=
  Build.moduleOf program.root (program.context settings) program.start

theorem compile_fst :
    (program.compile settings).1 = do
      let _ ← (program.lower settings).1
      let encoded ← (program.lower settings).2.module.encode.mapError (fun fault =>
        Failure.pipeline program.root.pos (.module fault))
      return ⟨(program.lower settings).2.module, encoded,
        absoluteMarks (program.lower settings).2.module encoded (program.lower settings).2.bodies⟩ :=
  rfl

/-- The state at the end of lowering, if it ends well. -/
def lowered (settings : Settings) (program : Program) : Option ModuleState :=
  match program.lower settings with
  | (.ok _, state) => some state
  | (.error _, _) => none

theorem lower_of_lowered {state : ModuleState} (h : program.lowered settings = some state) :
    program.lower settings = (.ok (), state) := by
  unfold lowered at h
  split at h
  next hlower =>
    obtain rfl := Option.some.inj h
    exact hlower
  · cases h

variable {compiled : Compiled} (h : (program.compile settings).1 = .ok compiled)
include h

/-- A program that is compiled has been lowered, and what came out was encoded. -/
theorem encoded_of_compile :
    ∃ state encoded, program.lowered settings = some state ∧ state.module.encode = .ok encoded ∧
      compiled = ⟨state.module, encoded, absoluteMarks state.module encoded state.bodies⟩ := by
  rw [compile_fst] at h
  obtain ⟨_, hlower, h⟩ := Except.exists_of_bind h
  obtain ⟨encoded, hencoded, h⟩ := Except.exists_of_bind h
  refine ⟨(program.lower settings).2, encoded, ?_, Except.ok_of_mapError hencoded, (Except.ok.inj h).symm⟩
  have hrun : program.lower settings = (.ok (), (program.lower settings).2) := Prod.ext hlower rfl
  rw [lowered, hrun]

theorem lowered_of_compile :
    ∃ state, program.lowered settings = some state ∧ compiled.module = state.module := by
  obtain ⟨state, encoded, hlowered, -, rfl⟩ := encoded_of_compile h
  exact ⟨state, hlowered, rfl⟩

end Program

end TreeWasm
