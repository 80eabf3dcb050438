import TreeWasm.Proofs.Building.Resolution

/-! # Ordinary failures

The check gives a type to each node, and lowering gives back each slot that it takes. So a checked
program is refused for ordinary reasons only: never because a node has no type, and never because of
slots. `Program.Passes` is about the states that lowering passes inside of bodies and initial values:
in none of them do two variables, or a variable and a temporary, have a slot in common.
-/

namespace TreeWasm

namespace Build

open Tree (IsModule)

variable {ctx : LowerContext} {start : LowerState} {uses : List Resolution} {info : TreeInfo}
  {imports before after : List Tree} {exports : List String} {st : ModuleState}

/-- The functions are introduced, and some of the variables are declared. -/
def globalsOf (imports decls before : List Tree) : Build Unit := do
  declarations imports decls
  before.forM (fun decl => lift (globalVariable decl))

theorem idle_of_globalsOf (hctx : ctx.Outermost) (hstart : Fresh start)
    (hroot : IsModule start.table uses (.module info imports (before ++ after) exports))
    (hparts : ∀ tree ∈ imports ++ (before ++ after), tree.Typed ∧ tree.Callable)
    (hrun : globalsOf imports (before ++ after) before ctx ⟨.empty, [], start⟩ = (.ok (), st)) :
    st.lower.Idle := by
  cases hroot with
  | @module _ _ _ _ _ names globals _ hfunctions hglobals hbodies hexports =>
    obtain ⟨first, rest, names', rfl, hbefore, -⟩ := hglobals.of_append
    have hdoes : (globalsOf imports (before ++ after) before).Does ctx ⟨.empty, [], start⟩ first
        (fun _ st => st.lower.Idle) := by
      refine .bind_nil (does_declarations (introduced_empty hstart.names hstart.idle)
        (fun tree htree => (hparts tree htree).2) hfunctions) (fun _ st₁ hintroduced => ?_)
      have hstatics : ∀ tree ∈ before, tree.declared?.isSome →
          (sceneOf start.table st₁.module.signature? before).statics :=
        fun tree htree hdeclared => ⟨tree, htree, hdeclared⟩
      have htyped : ∀ tree ∈ before, tree.Typed := fun tree htree =>
        (hparts tree (List.mem_append_right _ (List.mem_append_left _ htree))).1
      exact (does_globalVariables hctx htyped hstatics hbefore
        ⟨hintroduced.rests hstart.inits hstart.address, hintroduced.assembles⟩).mono
        (fun _ _ h => h.1.idle)
    exact (hdoes.ok _ _ hrun).2

end Build

namespace Program

variable {settings : Settings} {program : Program} {uses : List Resolution} {failure : Failure}

/-- Compiling a checked program fails for an ordinary reason only. -/
theorem isOrdinary_of_compile (h : program.Checked uses)
    (herror : (program.compile settings).1 = .error failure) : failure.isOrdinary := by
  rw [compile_fst] at herror
  obtain hlower | ⟨_, -, herror⟩ := Except.error_of_bind herror
  · exact ((does_lower settings h).error failure _ (Prod.ext hlower rfl)).1
  · obtain hencode | ⟨_, -, ⟨⟩⟩ := Except.error_of_bind herror
    cases hencoded : (program.lower settings).2.module.encode with
    | ok =>
      rw [hencoded] at hencode
      cases hencode
    | error fault =>
      rw [hencoded] at hencode
      cases hencode
      rfl

/-! ## Types -/

set_option maxRecDepth 4000 in
theorem shadowing_accepted :
    ∃ source program, Program.ofText 0 shadowing = .ok source ∧ source.check = .ok program := by
  have haccepted : (accepted? shadowing).isSome := by
    rw [accepted?_of_toList shadowing String.toList_ofList]
    decide +kernel
  obtain ⟨program, hprogram⟩ := Option.isSome_iff_exists.mp haccepted
  obtain ⟨source, hread, hcheck⟩ := accepted?_eq_some hprogram
  exact ⟨source, program, hread, hcheck⟩

/-- Lowering comes to the body of a function in the given state. -/
inductive Opens (settings : Settings) (program : Program) :
    List Tree → Tree → Bool → LoweredFunction → LowerState → Prop
  | intro {info finfo : TreeInfo} {imports before after params : List Tree} {exports : List String}
      {name : String} {body : Tree} {result : Ty} {exprBody : Bool} {f : LoweredFunction}
      {st : ModuleState} :
      program.root = .module info imports
        (before ++ .funcDecl finfo name params body result exprBody :: after) exports →
      Build.bodiesOf imports (before ++ .funcDecl finfo name params body result exprBody :: after)
        before (program.context settings) program.start = (.ok (), st) →
      st.lower.names.lookup name = some (.function f) →
      Opens settings program params body exprBody f
        { st.lower with pool := .ofParams f.signature.params, labels := .empty }

/-- The context of the bodies of functions. -/
def bodyContext (settings : Settings) (program : Program) : LowerContext :=
  { program.context settings with inFunction := true }

/-- A state that lowering passes while it makes an initial value, binds parameters or makes the body of
a function. -/
inductive Passes (settings : Settings) (program : Program) : LowerState → Prop
  | initial {info vinfo : TreeInfo} {imports before after : List Tree} {exports : List String}
      {name : String} {declared : Ty} {init : Tree} {st : ModuleState} {s : LowerState} :
      program.root = .module info imports (before ++ .varDecl vinfo name declared init :: after) exports →
      Build.globalsOf imports (before ++ .varDecl vinfo name declared init :: after) before
        (program.context settings) program.start = (.ok (), st) →
      Lower.Passes (Lower.withTemporaries do Lower.simplify (← init.lowering.value))
        (program.context settings) st.lower s → Passes settings program s
  | parameters {params first : List Tree} {body : Tree} {exprBody : Bool} {f : LoweredFunction}
      {s t : LowerState} : program.Opens settings params body exprBody f s → first <+: params →
      Build.bindParams first f.params 0 (program.bodyContext settings)
        { s with names := Level.empty :: s.names } = (.ok (), t) → Passes settings program t
  | body {params : List Tree} {body : Tree} {exprBody : Bool} {f : LoweredFunction}
      {s s' t : LowerState} : program.Opens settings params body exprBody f s →
      Build.bindParams params f.params 0 (program.bodyContext settings)
        { s with names := Level.empty :: s.names } = (.ok (), s') →
      Lower.Passes (if exprBody then Lower.withTemporaries body.lowering.value
        else body.lowering.statement) (program.bodyContext settings) s' t → Passes settings program t

variable {params : List Tree} {body : Tree} {exprBody : Bool} {f : LoweredFunction} {s t : LowerState}

section

variable (h : program.Opens settings params body exprBody f s) (hchecked : program.Checked uses)
include h hchecked

/-- When lowering comes to the body of a function, no slot is in use but those of the parameters. -/
theorem Opens.idle : s.Idle ∧ (f.params.flatMap Layout.slots).length ≤ s.pool.first + s.pool.params := by
  have hmodule := hchecked.isModule
  have hparts := hchecked.parts
  obtain ⟨hroot, hrun, hfound⟩ := h
  rw [hroot] at hmodule hparts
  obtain ⟨uses', uses'', names, -, -, hbodies⟩ :=
    Build.does_bodiesOf (program.outermost_context settings) program.fresh_start hmodule hparts
  obtain ⟨-, functions, hfunctions, hrests, -⟩ := hbodies.ok _ _ hrun
  refine ⟨hrests.idle.inPool _ _, ?_⟩
  cases hfunctions with
  | cons htree _ =>
    obtain ⟨f', hfound', hcalls⟩ := Build.exists_function (hrests.follows _) htree
    cases hfound.symm.trans hfound'
    rw [hcalls.signature]
    exact Nat.le_add_left _ _
  | skip hnone _ => cases hnone

/-- After some of the parameters are bound, they have slots of their own. -/
theorem Opens.disciplined {first : List Tree} {ctx : LowerContext}
    (hrun : Build.bindParams first f.params 0 ctx s.opened = (.ok (), t)) : t.Disciplined := by
  obtain ⟨hidle, hroom⟩ := h.idle hchecked
  have horderly : Lower.Orderly False True (Build.bindParams first f.params 0) ctx _ :=
    Build.orderly_opened hidle hroom
  exact (horderly.ok _ _ hrun).disciplined

end

/-- In all states that lowering passes, the slots in use are those of variables and temporaries. -/
theorem Passes.disciplined (h : program.Passes settings s) (hchecked : program.Checked uses) :
    s.Disciplined := by
  cases h with
  | initial hroot hrun hpasses =>
    have hmodule := hchecked.isModule
    have hparts := hchecked.parts
    rw [hroot] at hmodule hparts
    have hidle := Build.idle_of_globalsOf (program.outermost_context settings) program.fresh_start
      hmodule hparts hrun
    exact hpasses.disciplined hidle.disciplined
  | parameters hopens _ hrun => exact hopens.disciplined hchecked hrun
  | body hopens hrun hpasses => exact hpasses.disciplined (hopens.disciplined hchecked hrun)

/-- Slots are taken and given back in order. A checked program is never refused because of slots; in no
state that lowering passes do two variables, or a variable and a pending temporary, have a slot in
common; and when the body of a function is made no slot is in use, nor is one after code is loaded
with the scratch slots of that body. -/
theorem slots_disciplined (settings : Settings) {file : Int} {text : String} {source program : Program}
    (hread : Program.ofText file text = .ok source) (hcheck : source.check = .ok program) :
    (∀ failure, (program.compile settings).1 = .error failure → failure.isOfSlots = false) ∧
      (∀ s, program.Passes settings s → (s.parameters ++ (s.ownSlots ++ s.pending)).Nodup) ∧
      ∀ params body exprBody f s n t, program.Opens settings params body exprBody f s →
        Build.functionBody params body exprBody f (program.bodyContext settings) s = (.ok n, t) →
        t.pool.live = [] ∧ ∀ (m : Node) (context : EmitContext) module code st,
          m.load context ⟨module, t.pool.scratch⟩ = (.ok code, st) → st.scratch.live = [] := by
  obtain ⟨uses, -, hchecked⟩ := isModule_of_check hread hcheck
  refine ⟨fun failure herror => ?_, fun s hpasses => (hpasses.disciplined hchecked).nodup, ?_⟩
  · exact (Failure.isOrdinary_iff.mp (isOrdinary_of_compile hchecked herror)).2.1
  · intro params body exprBody f s n t hopens hrun
    obtain ⟨hidle, hroom⟩ := hopens.idle hchecked
    have horderly : Lower.Orderly False True (Build.functionBody params body exprBody f)
        (program.bodyContext settings) s :=
      Build.orderly_functionBody hidle hroom (by rintro ⟨⟩)
    have hnames := (Build.steps_functionBody params body exprBody f _ s n t hrun).names
    refine ⟨(hidle.advance (horderly.ok n t hrun) hnames).live, fun m context module code st hload => ?_⟩
    have hstands := m.load_stands context ⟨module, t.pool.scratch⟩
    rw [Steps.Runs, hload] at hstands
    exact hstands.scratch.eq_nil

theorem slots_disciplined_shadowing :
    ∃ source program, Program.ofText 0 shadowing = .ok source ∧ source.check = .ok program ∧
      (∀ failure, (program.compile .initial).1 = .error failure → failure.isOfSlots = false) ∧
      ∀ s, program.Passes .initial s → (s.parameters ++ (s.ownSlots ++ s.pending)).Nodup := by
  obtain ⟨source, program, hread, hcheck⟩ := shadowing_accepted
  obtain ⟨hfailures, hdistinct, -⟩ := slots_disciplined .initial hread hcheck
  exact ⟨source, program, hread, hcheck, hfailures, hdistinct⟩

end Program

end TreeWasm
