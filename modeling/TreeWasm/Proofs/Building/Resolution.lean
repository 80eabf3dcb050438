import TreeWasm.Proofs.Building.Modules
import TreeWasm.Proofs.Typing.Reading

/-! # Names mean what they meant in the check

The check of a program and its lowering both resolve the names of the program, each with levels of its
own. Every name that the check looks up is looked up by lowering in the same order, and found to be what
the same declaration gave; and nothing that the check let pass is refused by lowering for what a name
stands for or for where a jump leads.
-/

namespace TreeWasm

open Wasm

variable {source program : Program} {uses : List Resolution}

namespace Program

open Tree (IsModule)

/-- The names that the check of a program looks up, in order, and where it finds them declared. -/
def resolutions (program : Program) : Option (List Resolution) :=
  match Typing.module program.root {} ⟨program.table, [Level.empty], []⟩ with
  | .ok (_, state) => some state.resolved.reverse
  | .error _ => none

theorem check_eq_ok (h : source.check = .ok program) :
    ∃ state, Typing.module source.root {} ⟨source.table, [Level.empty], []⟩ =
      .ok (program.root, state) ∧ program.table = state.table := by
  obtain ⟨⟨root, state⟩, hrun, hprogram⟩ := Except.exists_of_bind h
  cases hprogram
  exact ⟨state, hrun, rfl⟩

/-- A program whose module uses the given names by the typing rules, and has all its types. -/
structure Checked (program : Program) (uses : List Resolution) : Prop where
  isModule : IsModule program.types uses program.root
  typed : program.root.Typed
  callable : ∀ tree ∈ program.root.required, tree.Callable

theorem Checked.parts (h : program.Checked uses) :
    ∀ tree ∈ program.root.required, tree.Typed ∧ tree.Callable :=
  fun tree htree => ⟨h.typed.required tree htree, h.callable tree htree⟩

/-- What passes the check is a module by the typing rules, and all its nodes have types. -/
theorem isModule_of_check {file : Int} {text : String} (hread : Program.ofText file text = .ok source)
    (hcheck : source.check = .ok program) :
    ∃ uses, source.resolutions = some uses ∧ program.Checked uses := by
  obtain ⟨htidy, hwhole⟩ := isTidy_of_ofText hread
  obtain ⟨state, hrun, htable⟩ := check_eq_ok hcheck
  obtain ⟨_, hlearns, -⟩ := Typing.finds_module hwhole htidy _ _ _ rfl (.start rfl rfl) hrun
  have haggregates : source.table.aggregates = program.types.aggregates := by
    change source.table.aggregates = program.table.aggregates
    rw [htable, hlearns.aggregates]
  obtain ⟨uses, hlearns, -, hmodule, htyped, hcallable⟩ :=
    Typing.finds_module (haggregates ▸ hwhole) htidy _ _ _ rfl (.start haggregates rfl) hrun
  refine ⟨uses, ?_, hmodule, htyped, hcallable⟩
  rw [resolutions, hrun]
  dsimp only
  rw [hlearns.resolved, List.append_nil, List.reverse_reverse]

theorem outermost_context (settings : Settings) (program : Program) : (program.context settings).Outermost :=
  ⟨rfl, rfl, rfl, rfl⟩

theorem fresh_start (program : Program) : Build.Fresh program.start.lower := ⟨rfl, rfl, rfl, rfl, rfl⟩

/-- Lowering a module by the typing rules looks up the names that the rules give, in order. -/
theorem does_lower (settings : Settings) (h : program.Checked uses) :
    (Build.moduleOf program.root).Does (program.context settings) program.start uses (fun _ st =>
      ∃ info imports decls exports, program.root = .module info imports decls exports ∧
        (∃ functions, (Build.sceneOf program.types functions decls).Assembles settings st) ∧
        (st.module.memory = none → st.lower.static.isUsed = false ∧ st.lower.needsMemory = false)) := by
  have hmodule := h.isModule
  have hparts := h.parts
  cases hroot : program.root with
  | module info imports decls exports =>
    rw [hroot] at hmodule hparts
    refine (Build.does_moduleOf (program.outermost_context settings) program.fresh_start hmodule
      hparts).mono ?_
    exact fun _ st hst => ⟨info, imports, decls, exports, rfl, hst⟩
  | _ =>
    rw [hroot] at hmodule
    cases hmodule

/-- Lowering a checked program looks up the names that the check looked up, in the same order, and finds
what the same declarations gave. It is never refused for what a name stands for or where a jump leads;
refused for another reason, it has looked up the first of these names. -/
theorem lower_resolves (settings : Settings) {file : Int} {text : String} {source program : Program}
    (hread : Program.ofText file text = .ok source) (hcheck : source.check = .ok program) :
    ∃ uses, source.resolutions = some uses ∧
      match program.lower settings with
      | (.ok _, state) => state.lower.resolved.reverse = uses
      | (.error failure, state) =>
        failure.isScoping = false ∧ state.lower.resolved.reverse <+: uses := by
  obtain ⟨uses, huses, hmodule⟩ := isModule_of_check hread hcheck
  have hlower := does_lower settings hmodule
  refine ⟨uses, huses, ?_⟩
  split
  next state hrun =>
    have hlog := (hlower.ok _ _ hrun).1
    rw [hlog, List.reverse_append, List.reverse_reverse]
    rfl
  next failure state hrun =>
    obtain ⟨hscoping, hlog⟩ := hlower.error _ _ hrun
    refine ⟨(Failure.isOrdinary_iff.mp hscoping).1, ?_⟩
    have hfirst := List.reverse_prefix.mpr hlog
    rwa [List.reverse_append, List.reverse_reverse] at hfirst

/-- A variable, a parameter and the variables of a value block, a loop and a case of one name. -/
def shadowing : String :=
  "exports: [f]
decls:
- \x7bvar: x, type: i32, init: 1\x7d
- fun: f
  params: \x7bx: i32\x7d
  result: i32
  body:
  - \x7bvar: y, init: \x7bblock: [\x7bvar: x, init: x\x7d, x]\x7d\x7d
  - while: \x7bbinary: [<, x, 9]\x7d
    do:
    - \x7bvar: x, init: y\x7d
    - \x7bswitch: x, cases: [\x7bcase: 1, do: [\x7bvar: x, init: y\x7d, break]\x7d]\x7d
  - \x7breturn: x\x7d
"

set_option maxRecDepth 4000 in
theorem lower_resolves_shadowing :
    ∃ source program state, Program.ofText 0 shadowing = .ok source ∧ source.check = .ok program ∧
      program.lowered .initial = some state ∧
      source.resolutions = some state.lower.resolved.reverse ∧
      state.lower.resolved.reverse.map (fun r => (r.name, r.use.line, r.declared.line)) =
        [("x", 8, 5), ("x", 8, 8), ("x", 9, 5), ("y", 11, 8), ("x", 12, 11), ("y", 12, 8), ("x", 13, 5)] := by
  have hfacts : (Program.ofText 0 shadowing).toOption.any (fun source =>
      source.check.toOption.any (fun program => (program.lowered .initial).any (fun state =>
        state.lower.resolved.reverse.map (fun r => (r.name, r.use.line, r.declared.line)) ==
          [("x", 8, 5), ("x", 8, 8), ("x", 9, 5), ("y", 11, 8), ("x", 12, 11), ("y", 12, 8),
            ("x", 13, 5)]))) = true := by
    rw [ofText_of_toList 0 shadowing String.toList_ofList]
    decide +kernel
  obtain ⟨source, hsource, hfacts⟩ := (Option.any_eq_true _ _).mp hfacts
  obtain ⟨program, hprogram, hfacts⟩ := (Option.any_eq_true _ _).mp hfacts
  obtain ⟨state, hlowered, hlines⟩ := (Option.any_eq_true _ _).mp hfacts
  have hread := eq_ok_of_toOption hsource
  have hcheck := eq_ok_of_toOption hprogram
  obtain ⟨uses, huses, hlog⟩ := lower_resolves .initial hread hcheck
  rw [lower_of_lowered hlowered] at hlog
  exact ⟨source, program, state, hread, hcheck, hlowered, hlog ▸ huses, beq_iff_eq.mp hlines⟩

end Program

end TreeWasm
