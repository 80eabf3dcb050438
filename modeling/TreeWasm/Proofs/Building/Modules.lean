import TreeWasm.Proofs.Building.Declarations

/-! # Building modules

After the declarations the bodies of the functions are built, each with slots and labels of its own.
Last comes what depends on the whole module: the routine that assigns initial values, the memory and the
exports. Through all phases building looks up the names that the check looked up, and fails for an
ordinary reason only; and the module that comes out is right by `Scene.Assembles`.
-/

namespace TreeWasm

open Wasm

namespace Wasm.Module

variable {m : Module} {name : String} {kind : ExternKind} {index : Nat}

theorem quiet_of_eq {m' : Module} (htypes : m'.types = m.types) (himports : m'.imports = m.imports)
    (hfunctions : m'.functions = m.functions) : m.Quiet m' := by
  have hindices : m'.indices = m.indices := by rw [indices, indices, himports, hfunctions]
  exact .of_functions ⟨htypes ▸ List.prefix_refl _, hindices ▸ List.prefix_refl _⟩ hfunctions

theorem lt_count_function {ft : FuncType} (h : m.signature? index = some ft) : index < m.count .function := by
  obtain ⟨signature, hsignature, -⟩ := Option.bind_eq_some_iff.mp h
  exact (List.getElem?_eq_some_iff.mp hsignature).1

theorem Linked.addExport (h : m.Linked) (hfree : Build.isExported m name = false)
    (hindex : index < m.count kind) : (m.addExport name kind index).Linked where
  known := h.known
  distinct := by
    have hnew : name ∉ m.exports.map Export.name := by
      simpa [Build.isExported] using hfree
    simpa [Module.addExport, List.nodup_append] using ⟨h.distinct, by simpa using hnew⟩
  exported := by
    intro e he
    obtain hold | hnew := List.mem_append.mp he
    · exact h.exported e hold
    · obtain rfl := List.mem_singleton.mp hnew
      exact hindex
  started := h.started

theorem Linked.addGlobal (h : m.Linked) (g : Global) : (m.addGlobal g).1.Linked where
  known := h.known
  distinct := h.distinct
  exported := by
    intro e he
    refine Nat.lt_of_lt_of_le (h.exported e he) ?_
    cases e.kind with
    | global => exact (List.prefix_append _ _).length_le
    | _ => exact Nat.le_refl _
  started := h.started

theorem Linked.setMemory (h : m.Linked) (limits : Limits) : (m.setMemory limits).Linked where
  known := h.known
  distinct := h.distinct
  exported := by
    intro e he
    refine Nat.lt_of_lt_of_le (h.exported e he) ?_
    cases e.kind with
    | memory => exact Option.length_toList_le
    | _ => exact Nat.le_refl _
  started := h.started

theorem Linked.setStart (h : m.Linked) (hown : m.imports.length ≤ index)
    (hsignature : m.signature? index = some ⟨[], []⟩) : (m.setStart index).Linked where
  known := h.known
  distinct := h.distinct
  exported := h.exported
  started := by
    rintro _ ⟨⟩
    exact ⟨hown, hsignature⟩

end Wasm.Module

namespace Build

open LowerState (Settles Supplies Takes)
open Tree (AreFunctions IsFunction IsModule)

variable {α : Type} {scene : Scene} {names : Chain TypedName} {uses : List Resolution}
  {ctx : LowerContext} {start : LowerState} {st : ModuleState} {pos : Position} {name : String}
  {exprBody : Bool} {exports : List String} {decls imports params : List Tree} {body : Tree}
  {info : TreeInfo} {result : Ty}

/-! ## Bodies -/

theorem does_inFunction {pool : SlotPool} {build : Build α} {P : α → ModuleState → Prop}
    (h : build.Does { ctx with inFunction := true }
      { st with lower := { st.lower with pool := pool, labels := .empty } } uses P) :
    (inFunction pool build).Does ctx st uses (fun a st' => ∃ st₁, P a st₁ ∧
      st' = { st₁ with lower := { st₁.lower with
        pool := st.lower.pool, labels := st.lower.labels } }) := by
  refine .get (.bind_nil (P := fun _ st' => st' = _) (.modify rfl rfl) ?_)
  rintro _ _ rfl
  refine .bind_last (.withReader h) (fun a st₁ ha => ?_)
  refine .bind_nil (P := fun _ st' => st' = _) (.modify rfl rfl) ?_
  rintro _ _ rfl
  exact .pure ⟨st₁, ha, rfl⟩

/-- A body is built and emitted with slots and labels of its own. -/
theorem does_body {f : LoweredFunction} (hctx : ctx.Outermost)
    (htree : IsFunction scene.types names uses (.funcDecl info name params body result exprBody))
    (hbody : body.Typed) (hcalls : scene.Calls info.type f) (hreturns : ctx.inFunction)
    (hpool : st.lower.pool = .ofParams f.signature.params) (hidle : st.lower.Idle)
    (hfollows : scene.Follows names st.lower) (h : scene.Assembles ctx.settings st) :
    Does (do
      let n ← lift (functionBody params body exprBody f)
      let live := (← get).lower.pool.liveCount
      if live ≠ 0 then throw (.pipeline info.pos (.liveSlots live name))
      else emitFunction info.pos f.index (← lift (Lower.simplifyBody n))) ctx st uses
      (fun _ st' => scene.Assembles ctx.settings st' ∧ st'.lower.table = st.lower.table ∧
        st'.lower.static = st.lower.static ∧ st'.lower.names = st.lower.names ∧ st'.lower.Idle ∧
        (st.lower.needsMemory = true → st'.lower.needsMemory = true)) := by
  have horderly : Lower.Orderly True True (functionBody params body exprBody f) ctx st.lower :=
    orderly_functionBody_of_idle hcalls hpool hidle (fun _ => hbody)
  refine .bind_last (does_lift (does_functionBody htree hcalls hpool hidle hfollows
    (hctx.admits _) hreturns) (horderly.error _ _)) ?_
  rintro n _ ⟨s₁, ⟨hformed, htakes, hstatic, hidle₁⟩, rfl⟩
  rw [hctx.around] at hformed
  have hlive : s₁.pool.liveCount = 0 := congrArg List.length hidle₁.live
  refine .get (.ite (fun hne => absurd hlive hne) (fun _ => ?_))
  refine .bind_nil (does_lift Lower.does_simplifyBody Lower.calm_simplifyBody.error) ?_
  rintro m _ ⟨_, ⟨hstage, labels, rfl⟩, rfl⟩
  have hcounted := hstage.counted (hformed.counted htakes.toSupplies)
  have hbegins : s₁.pool.Begins f.signature.params := by
    refine SlotPool.Begins.of_extends ?_ htakes.grows.pool
    rw [hpool]
    exact SlotPool.begins_ofParams
  refine .mono (does_emitFunction hcounted (hstage.shaped hformed.shaped) ?_ hbegins
    (h.functions _ _ hcalls.index) (h.of_lower htakes.memory)) ?_
  · exact fun need hneed => (htakes.provided need (hstage.within.needs hneed)).mono (.refl _) id
  · rintro _ st' ⟨hassembles, hlower, -⟩
    rw [hlower]
    exact ⟨hassembles, htakes.grows.table, hstatic, htakes.names, hidle₁.of_same rfl rfl rfl, htakes.memory⟩

theorem exists_function (hfollows : scene.Follows names st.lower)
    (htree : IsFunction scene.types names uses (.funcDecl info name params body result exprBody)) :
    ∃ f, st.lower.names.lookup name = some (.function f) ∧ scene.Calls info.type f := by
  have hname : names.lookup name = some ⟨info.type, true, info.pos⟩ := by
    cases htree with
    | value _ hname | statement _ hname => exact hname
  obtain ⟨binding, hfound, hmeans⟩ := hfollows.found name _ hname
  cases binding with
  | «variable» storage => cases hmeans.2.1
  | parameter storage => cases hmeans.2.1
  | function f => exact ⟨f, hfound, hmeans.2.2⟩

theorem does_defineFunction {tree : Tree} (hctx : ctx.Outermost)
    (htree : IsFunction scene.types names uses tree) (htyped : tree.Typed)
    (h : scene.Rests ctx start names st.lower ∧ scene.Assembles ctx.settings st) :
    (defineFunction tree).Does ctx st uses (fun _ st' =>
      scene.Rests ctx start names st'.lower ∧ scene.Assembles ctx.settings st') := by
  cases tree with
  | funcDecl info name params body result exprBody =>
    obtain ⟨hrests, hassembles⟩ := h
    obtain ⟨f, hfound, hcalls⟩ := exists_function (hrests.follows st.lower.pool) htree
    refine .bind_nil (does_lift (Lower.does_find hfound) (Lower.calm_find info.pos name).error) ?_
    rintro _ _ ⟨_, ⟨rfl, rfl⟩, rfl⟩
    have hinner : LowerContext.Outermost { ctx with inFunction := true } := { hctx with }
    have hfollows : scene.Follows names { st.lower with
        pool := .ofParams f.signature.params, labels := .empty } :=
      hrests.follows_within
    have hidle := hrests.idle.inPool f.signature.params .empty
    refine (does_inFunction (does_body hinner htree (htyped.required body (.head _)) hcalls rfl rfl hidle hfollows
      (hassembles.of_lower id))).mono ?_
    rintro _ _ ⟨st₁, ⟨hassembles₁, htable, hstatic, hnames, hidle₁, hmemory⟩, rfl⟩
    have htemps := hidle₁.temps.trans hrests.idle.temps.symm
    exact ⟨hrests.of_same htable hstatic hnames rfl rfl htemps hmemory, hassembles₁.of_lower id⟩
  | _ => cases htree

theorem does_defineFunctions (hctx : ctx.Outermost) (htyped : ∀ tree ∈ decls, tree.Typed)
    (hdecls : AreFunctions scene.types names uses decls)
    (h : scene.Rests ctx start names st.lower ∧ scene.Assembles ctx.settings st) :
    (decls.forM defineFunction).Does ctx st uses (fun _ st' =>
      scene.Rests ctx start names st'.lower ∧ scene.Assembles ctx.settings st') := by
  induction hdecls generalizing st with
  | nil => exact .pure h
  | cons htree _ ih =>
    rw [List.forall_mem_cons] at htyped
    exact (does_defineFunction hctx htree htyped.1 h).bind (fun _ _ h => ih htyped.2 h)
  | @skip _ tree _ hnone _ ih =>
    have hskip : (defineFunction tree).Does ctx st [] (fun _ st' => st' = st) := by
      cases tree with
      | funcDecl => cases hnone
      | _ => exact .pure rfl
    refine hskip.bind_nil ?_
    rintro _ _ rfl
    exact ih (List.forall_mem_cons.mp htyped).2 h

/-! ## Exports, memory and the routine for initial values -/

theorem does_exportAs {kind : ExternKind} {index : Nat} (hindex : index < st.module.count kind)
    (h : scene.Assembles ctx.settings st) :
    (exportAs pos name kind index).Does ctx st [] (fun _ st' => scene.Assembles ctx.settings st' ∧
      st' = { st with module := st.module.addExport name kind index }) := by
  refine .get (.ite (fun _ => .throw rfl) (fun hfree => .set rfl ⟨?_, rfl⟩))
  exact h.of_quiet (h.linked.addExport (Bool.not_eq_true _ ▸ hfree) hindex) (Module.quiet_of_eq rfl rfl rfl) h.noted

/-- The routine for initial values is a function like the others. -/
theorem does_initRoutine (hctx : ctx.Outermost) (hpool : start.pool = .ofParams [])
    (h : scene.Rests ctx start names st.lower ∧ scene.Assembles ctx.settings st) :
    (initRoutine pos).Does ctx st [] (fun _ st' => scene.Assembles ctx.settings st' ∧
      ∃ labels, st'.lower = { st.lower with labels := labels }) := by
  obtain ⟨hrests, hassembles⟩ := h
  refine .get (.ite (fun _ => .pure ⟨hassembles, st.lower.labels, rfl⟩) (fun _ => ?_))
  refine .bind_nil does_change ?_
  rintro _ _ ⟨rfl, rfl⟩
  refine .bind_nil (does_lift Lower.does_simplifyBody Lower.calm_simplifyBody.error) ?_
  rintro m _ ⟨_, ⟨hstage, labels, rfl⟩, rfl⟩
  have hformed := hrests.formed_inits hctx pos
  have hcounted := hstage.counted (hformed.counted hrests.inits.toSupplies)
  have hbegins : st.lower.pool.Begins [] := by
    refine SlotPool.Begins.of_extends ?_ hrests.inits.grows.pool
    rw [hpool]
    exact SlotPool.begins_ofParams
  have henlarges := st.module.enlarges_declare ⟨[], []⟩
  have hlinked := hassembles.linked.of_enlarges henlarges (Module.known_declare hassembles.linked.known)
  have hdeclared := hassembles.of_quiet hlinked (st.module.quiet_declare ⟨[], []⟩) (hassembles.noted.declare _)
  refine .bind_nil (does_emitFunction hcounted (hstage.shaped hformed.shaped) ?_ hbegins
    (st.module.signature?_declare ⟨[], []⟩) (hdeclared.of_lower id)) ?_
  · exact fun need hneed =>
      (hrests.inits.provided need (hstage.within.needs hneed)).mono (.refl _) id
  rintro _ st₁ ⟨hassembles₁, hlower, henlarges₁⟩
  have hsignature := henlarges₁.toGrows.signature? (st.module.signature?_declare ⟨[], []⟩)
  refine .read (.ite (fun _ => does_change.mono ?_) (fun _ => ?_))
  · rintro _ _ ⟨-, rfl⟩
    refine ⟨hassembles₁.of_quiet (hassembles₁.linked.setStart ?_ hsignature)
      (Module.quiet_of_eq rfl rfl rfl) hassembles₁.noted, labels, hlower⟩
    rw [henlarges₁.imports, henlarges.imports]
    exact Nat.le_add_right _ _
  · refine (does_exportAs (Module.lt_count_function hsignature) hassembles₁).mono ?_
    rintro _ _ ⟨hassembles₂, rfl⟩
    exact ⟨hassembles₂, labels, hlower⟩

/-- Memory is declared unless nothing was reserved and no address is used. -/
theorem does_memory (h : scene.Assembles ctx.settings st) :
    (memory pos).Does ctx st [] (fun _ st' => scene.Assembles ctx.settings st' ∧ st'.lower = st.lower ∧
      (st'.module.memory = none → st.lower.static.isUsed = false ∧ st.lower.needsMemory = false)) := by
  refine .get (.ite (fun hunused => .pure ⟨h, rfl, fun _ => ?_⟩) (fun _ => ?_))
  · simpa using hunused
  refine .read (.ite (fun _ => .throw rfl) (fun _ => .bind_nil does_change ?_))
  rintro _ _ ⟨-, rfl⟩
  rw [foldl_addData]
  have hlinked : Module.Linked { st.module with
      memory := some ⟨pagesFor st.lower.static.next, ctx.settings.maxPages.toUInt64.toUInt32⟩
      segments := st.module.segments ++ st.lower.static.segments } :=
    { h.linked.setMemory _ with }
  have hassembles := h.of_quiet hlinked (Module.quiet_of_eq rfl rfl rfl) h.noted
  refine .ite (fun _ => (does_exportAs ?_ hassembles).mono ?_) (fun _ => .pure ⟨hassembles, rfl, nofun⟩)
  · exact Nat.one_pos
  · rintro _ _ ⟨hassembles', rfl⟩
    exact ⟨hassembles', rfl, nofun⟩

theorem does_exportName (hname : (names.lookup name).isSome) (hfollows : scene.Follows names st.lower)
    (h : scene.Assembles ctx.settings st) :
    (exportName pos name).Does ctx st [] (fun _ st' => scene.Assembles ctx.settings st' ∧
      st'.lower = st.lower ∧ st'.module.memory = st.module.memory) := by
  obtain ⟨value, hvalue⟩ := Option.isSome_iff_exists.mp hname
  obtain ⟨binding, hfound, hmeans⟩ := hfollows.found name value hvalue
  refine .get ?_
  rw [hfound]
  cases binding with
  | parameter storage => exact .pure ⟨h, rfl, rfl⟩
  | function f =>
    have hindex := Module.lt_count_function (h.functions _ _ hmeans.2.2.index)
    refine (does_exportAs hindex h).mono ?_
    rintro _ _ ⟨hassembles, rfl⟩
    exact ⟨hassembles, rfl, rfl⟩
  | «variable» storage =>
    cases storage with
    | data info addr offset =>
      refine .bind_nil does_change ?_
      rintro _ _ ⟨rfl, rfl⟩
      refine (does_exportAs ?_ (h.of_quiet (h.linked.addGlobal _) (Module.quiet_of_eq rfl rfl rfl) h.noted)).mono ?_
      · simp [Module.count, Module.addGlobal]
      · rintro _ _ ⟨hassembles, rfl⟩
        exact ⟨hassembles, rfl, rfl⟩
    | _ => exact .pure ⟨h, rfl, rfl⟩

/-! ## The whole module -/

/-- All declarations, and the bodies of some of the functions. -/
def bodiesOf (imports decls before : List Tree) : Build Unit := do
  declarations imports decls
  decls.forM (fun decl => lift (globalVariable decl))
  before.forM defineFunction

theorem moduleOf_eq_bodiesOf :
    moduleOf (.module info imports decls exports) = (do
      bodiesOf imports decls decls
      initRoutine info.pos
      memory info.pos
      exports.forM (exportName info.pos)) := by
  simp only [moduleOf, bodiesOf, declarations, bind_assoc]

/-- The state from which a module is built: nothing is bound, put aside or taken. -/
structure Fresh (start : LowerState) : Prop where
  names : start.names = [Level.empty]
  inits : start.static.inits = []
  address : start.static.address.isFaithful
  pool : start.pool = .ofParams []
  temps : start.temps = []

theorem Fresh.idle (h : Fresh start) : start.Idle := by
  refine ⟨?_, ?_, h.temps, ?_, ?_⟩
  · rw [h.pool]
    exact .ofParams _
  · rw [h.pool]
    rfl
  · rw [LowerState.ownSlots, h.names]
    rfl
  · rw [LowerState.parameters, h.names]
    rfl

/-- The scene of the bodies of a module, whose functions are given. -/
def sceneOf (table : TypeTable) (functions : Nat → Option FuncType) (decls : List Tree) : Scene :=
  ⟨table, functions, ∃ tree ∈ decls, tree.declared?.isSome⟩

theorem does_bodiesOf {before after : List Tree} (hctx : ctx.Outermost)
    (hstart : Fresh start)
    (hroot : IsModule start.table uses (.module info imports (before ++ after) exports))
    (hparts : ∀ tree ∈ imports ++ (before ++ after), tree.Typed ∧ tree.Callable) :
    ∃ uses' uses'' names, uses = uses' ++ uses'' ∧
      (∀ name ∈ exports, (names.lookup name).isSome) ∧
      (bodiesOf imports (before ++ after) before).Does ctx ⟨.empty, [], start⟩ uses'
        (fun _ st => ∃ functions, let scene := sceneOf start.table functions (before ++ after)
          AreFunctions start.table names uses'' after ∧
          scene.Rests ctx start names st.lower ∧ scene.Assembles ctx.settings st) := by
  cases hroot with
  | @module _ _ _ _ _ names globals _ hfunctions hglobals hbodies hexports =>
    obtain ⟨first, rest, rfl, hbefore, hafter⟩ := hbodies.of_append
    refine ⟨globals ++ first, rest, names, by rw [List.append_assoc], hexports, ?_⟩
    have htyped : ∀ tree ∈ before ++ after, tree.Typed :=
      fun tree htree => (hparts tree (List.mem_append_right _ htree)).1
    refine .bind_nil (does_declarations (introduced_empty hstart.names hstart.idle)
      (fun tree htree => (hparts tree htree).2) hfunctions) (fun _ st₁ hintroduced => ?_)
    have hstatics : ∀ tree ∈ before ++ after, tree.declared?.isSome →
        (sceneOf start.table st₁.module.signature? (before ++ after)).statics :=
      fun tree htree hdeclared => ⟨tree, htree, hdeclared⟩
    refine .bind (does_globalVariables hctx htyped hstatics hglobals
      ⟨hintroduced.rests hstart.inits hstart.address, hintroduced.assembles⟩) (fun _ st₂ h₂ => ?_)
    refine (does_defineFunctions hctx (fun tree htree => htyped tree (List.mem_append_left _ htree))
      hbefore h₂).mono (fun _ st₃ h₃ => ?_)
    exact ⟨st₁.module.signature?, hafter, h₃⟩

/-- Building a module looks up the names that the check looked up, and gives a module that is right. -/
theorem does_moduleOf (hctx : ctx.Outermost) (hstart : Fresh start)
    (hroot : IsModule start.table uses (.module info imports decls exports))
    (hparts : ∀ tree ∈ imports ++ decls, tree.Typed ∧ tree.Callable) :
    (moduleOf (.module info imports decls exports)).Does ctx ⟨.empty, [], start⟩ uses
      (fun _ st => (∃ functions, (sceneOf start.table functions decls).Assembles ctx.settings st) ∧
        (st.module.memory = none → st.lower.static.isUsed = false ∧ st.lower.needsMemory = false)) := by
  rw [moduleOf_eq_bodiesOf]
  rw [← List.append_nil decls] at hroot hparts
  obtain ⟨uses', uses'', names, rfl, hexports, hbodies⟩ := does_bodiesOf hctx hstart hroot hparts
  rw [List.append_nil] at hbodies
  refine .bind hbodies ?_
  rintro _ st₁ ⟨functions, hnone, hrests, hassembles⟩
  cases hnone
  refine .bind_nil (does_initRoutine hctx hstart.pool ⟨hrests, hassembles⟩) ?_
  rintro _ st₂ ⟨hassembles₂, labels, hlower₂⟩
  have hfollows : (sceneOf start.table functions decls).Follows names st₂.lower := by
    rw [hlower₂]
    exact hrests.follows_within
  refine .bind_nil (does_memory hassembles₂) ?_
  rintro _ st₃ ⟨hassembles₃, hlower₃, hmemory⟩
  rw [← hlower₃] at hfollows hmemory
  have hexported (name : String) (hname : name ∈ exports) (st : ModuleState)
      (h : (sceneOf start.table functions decls).Assembles ctx.settings st ∧ st.lower = st₃.lower ∧
        st.module.memory = st₃.module.memory) :
      (exportName info.pos name).Does ctx st [] (fun _ st' =>
        (sceneOf start.table functions decls).Assembles ctx.settings st' ∧ st'.lower = st₃.lower ∧
        st'.module.memory = st₃.module.memory) := by
    obtain ⟨hassembles, hlower, hsame⟩ := h
    refine (does_exportName (hexports name hname) (hlower ▸ hfollows) hassembles).mono ?_
    rintro _ st' ⟨hassembles', hlower', hsame'⟩
    exact ⟨hassembles', hlower'.trans hlower, hsame'.trans hsame⟩
  refine (Meets.forM hexported ⟨hassembles₃, rfl, rfl⟩).mono ?_
  rintro _ st₄ ⟨hassembles₄, hlower₄, hsame₄⟩
  rw [hsame₄, hlower₄]
  exact ⟨⟨functions, hassembles₄⟩, hmemory⟩

end Build

end TreeWasm
