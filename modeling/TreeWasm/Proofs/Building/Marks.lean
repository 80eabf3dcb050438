import TreeWasm.Proofs.Building.Linking

/-! # Source marks of compiled programs

The marks of a compiled program are those of the code of its functions, counted from the start of the
module. They are in order, and each stays inside the code it was noted for.
-/

namespace TreeWasm

open Wasm

namespace Program

/-- With source marks, the marks of a compiled program are those of the code of its functions, each
counted from the first instruction of its function. They are in order, and inside the code of their
function: at an instruction or at the end of it. Each has a line, and none repeats the one before it. -/
theorem compile_marks_ordered {settings : Settings} {text : String} {program : Program}
    {compiled : Compiled} (haccepted : accepted? text = some program)
    (hon : settings.features .sourceMap) (hcompiled : (program.compile settings).1 = .ok compiled) :
    ∃ codes : List Code,
      compiled.module.functions.map (fun f => f.body.map Body.code) =
        codes.map (fun code => some (Instr.encode code)) ∧
      compiled.encoded.bodyOffsets.length = codes.length ∧
      compiled.marks = (List.zipWith Instr.marksAt compiled.encoded.bodyOffsets codes).flatten ∧
      compiled.marks.Pairwise (fun a b => a.1 ≤ b.1) ∧
      ∀ code ∈ codes, (Instr.marks code).IsChain (· ≠ ·) ∧
        ∀ mark ∈ Instr.marks code, mark.1 ≤ (Instr.encode code).length ∧ mark.2.line ≠ 0 := by
  obtain ⟨state, info, imports, decls, exports, functions, hlowered, -, -, hassembles, -⟩ :=
    assembled_of_compile haccepted hcompiled
  obtain ⟨_, encoded, hsame, hencoded, rfl⟩ := encoded_of_compile hcompiled
  obtain rfl := Option.some.inj (hlowered.symm.trans hsame)
  obtain ⟨bodies, hbodies, hencoding⟩ := Module.encode_eq_ok hencoded
  obtain ⟨first, hoffsets⟩ : ∃ first, encoded.bodyOffsets = Module.firstInstructions first bodies :=
    ⟨_, congrArg Encoded.bodyOffsets hencoding⟩
  have hlength : encoded.bodyOffsets.length = bodies.length := by
    rw [hoffsets, Module.length_firstInstructions]
  have hnoted := hassembles.noted
  rw [hon] at hnoted
  obtain ⟨codes, hcodes, hmarks⟩ := hnoted.absoluteMarks hbodies hlength
  refine ⟨codes, ?_, ?_, hmarks, ?_, fun code _ => ⟨Piece.isChain_marksFrom 0 none _, fun mark hmark => ?_⟩⟩
  · have hall := congrArg (List.map (Option.map Body.code)) hbodies
    have hsome := congrArg (List.map some) hcodes
    rw [List.map_map, List.map_map] at hall hsome
    exact hall.trans hsome
  · simpa [hlength] using congrArg List.length hcodes
  · rw [hmarks, hoffsets]
    exact (Module.pairwise_marksAt first hcodes).1
  · have hinside := Piece.inside_marksFrom mark hmark
    rw [Nat.zero_add] at hinside
    exact hinside.2

/-- The settings with source marks. -/
def marking : Settings := { Settings.initial with features := fun _ => true }

set_option maxRecDepth 4000 in
theorem compile_marks_ordered_recursion :
    ∃ program state compiled, accepted? recursion = some program ∧
      program.lowered marking = some state ∧ state.bodies.map (fun body => body.marks.length) = [9, 3] ∧
      (program.compile marking).1 = .ok compiled ∧ compiled.marks.Pairwise (fun a b => a.1 ≤ b.1) := by
  have hfacts : (accepted? recursion).any (fun program => (program.compile marking).1.isOk &&
      (program.lowered marking).any (fun state =>
        state.bodies.map (fun body => body.marks.length) = [9, 3])) = true := by
    rw [accepted?_of_toList recursion String.toList_ofList]
    decide +kernel
  obtain ⟨program, haccepted, hfacts⟩ := (Option.any_eq_true _ _).mp hfacts
  obtain ⟨hok, hfacts⟩ := Bool.and_eq_true_iff.mp hfacts
  obtain ⟨state, hlowered, hmarks⟩ := (Option.any_eq_true _ _).mp hfacts
  obtain ⟨compiled, hcompiled⟩ := Except.exists_of_isOk hok
  obtain ⟨codes, -, -, -, hordered, -⟩ := compile_marks_ordered haccepted rfl hcompiled
  exact ⟨program, state, compiled, haccepted, hlowered, of_decide_eq_true hmarks, hcompiled, hordered⟩

end Program

end TreeWasm
