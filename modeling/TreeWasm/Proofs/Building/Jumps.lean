import TreeWasm.Proofs.Building.Resolution

/-! # Jumps stay inside their constructs

While a body is built, each branch is counted as a use of its label. The counts decide which blocks are
kept when the body is folded and emitted, so that a branch that is missing from them would lose its
block. They are never too low: neither when the body is complete, nor while it is folded and its branches
are counted again.
-/

namespace TreeWasm

open Wasm

namespace Program

open Node (Stage)
open Tree (AreFunctions)

/-- The body that is built for a declaration, if it is one of a function, and the uses that were counted
for its labels. After the last declaration comes the routine that assigns initial values. -/
def built? (settings : Settings) (program : Program) (index : Nat) : Option (Labels × Node) :=
  match program.root with
  | .module info imports decls _ =>
    match Build.bodiesOf imports decls (decls.take index) (program.context settings) program.start with
    | (.error _, _) => none
    | (.ok _, st) =>
      match decls[index]? with
      | none => some (st.lower.labels, .seq ⟨info.pos, .unit⟩ st.lower.static.inits)
      | some (.funcDecl _ name params body _ exprBody) =>
        match st.lower.names.lookup name with
        | some (.function f) =>
          match Build.functionBody params body exprBody f
            { program.context settings with inFunction := true }
            { st.lower with pool := .ofParams f.signature.params, labels := .empty } with
          | (.ok n, s) => some (s.labels, n)
          | (.error _, _) => none
        | _ => none
      | some _ => none
  | _ => none

theorem counted_of_built {settings : Settings} {text : String} {program : Program} {index : Nat}
    {labels : Labels} {body : Node} (haccepted : accepted? text = some program)
    (hbuilt : program.built? settings index = some (labels, body)) : body.Counted labels := by
  obtain ⟨source, hread, hcheck⟩ := accepted?_eq_some haccepted
  obtain ⟨uses, -, hchecked⟩ := isModule_of_check hread hcheck
  have hmodule := hchecked.isModule
  have hparts := hchecked.parts
  have hctx := program.outermost_context settings
  unfold built? at hbuilt
  split at hbuilt
  next info imports decls exports hroot =>
    rw [hroot] at hmodule hparts
    rw [← List.take_append_drop index decls] at hmodule
    rw [Tree.required, ← List.take_append_drop index decls] at hparts
    obtain ⟨uses', uses'', names, -, -, hbodies⟩ :=
      Build.does_bodiesOf hctx program.fresh_start hmodule hparts
    rw [List.take_append_drop] at hbodies
    split at hbuilt
    · cases hbuilt
    next st hrun =>
      obtain ⟨-, functions, hfunctions, hrests, -⟩ := hbodies.ok _ _ hrun
      split at hbuilt
      · cases hbuilt
        exact (hrests.formed_inits hctx info.pos).counted hrests.inits.toSupplies
      next finfo name params tree result exprBody hdecl =>
        obtain ⟨uses, htree⟩ := hfunctions.isFunction hdecl
        obtain ⟨f, hfound, hcalls⟩ := Build.exists_function (hrests.follows st.lower.pool) htree
        rw [hfound] at hbuilt
        dsimp only at hbuilt
        split at hbuilt
        next n s hbody =>
          cases hbuilt
          have hinner : LowerContext.Outermost { program.context settings with inFunction := true } :=
            { hctx with }
          obtain ⟨-, hformed, htakes, -⟩ := (Build.does_functionBody htree hcalls rfl
            (hrests.idle.inPool _ _) hrests.follows_within (hinner.admits _) rfl).ok _ _ hbody
          rw [hinner.around] at hformed
          exact hformed.counted htakes.toSupplies
        · cases hbuilt
      · cases hbuilt
  · cases hbuilt

end Program

end TreeWasm
