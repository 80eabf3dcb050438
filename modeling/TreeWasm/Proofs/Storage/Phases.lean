import TreeWasm.Proofs.Emission.Faults
import TreeWasm.Proofs.Storage.Placement

/-! # The phases of a module

A module is lowered in phases. Only the declaration of variables reserves static memory; only the
memory phase gives the module its memory and data; only exports of variables add globals. Every other
phase leaves these parts of the module alone.
-/

namespace TreeWasm

open Wasm Lower

variable {index : Nat} {kind : ExternKind}

namespace ModuleState

/-- The second state has the memory, data and globals of the first, exports no further globals, and
has the same variables. -/
structure Keeps (st st' : ModuleState) : Prop where
  lower : st.lower.Keeps st'.lower
  memory : st'.module.memory = st.module.memory
  segments : st'.module.segments = st.module.segments
  globals : st'.module.globals = st.module.globals
  exports : ∀ e ∈ st'.module.exports, e.kind = .global → e ∈ st.module.exports

instance : Std.Refl Keeps := ⟨fun st => ⟨Std.Refl.refl st.lower, rfl, rfl, rfl, fun _ he _ => he⟩⟩

instance : Trans Keeps Keeps Keeps :=
  ⟨fun h h' =>
    { lower := Trans.trans h.lower h'.lower
      memory := h'.memory.trans h.memory
      segments := h'.segments.trans h.segments
      globals := h'.globals.trans h.globals
      exports := fun e he hkind => h.exports e (h'.exports e he hkind) hkind }⟩

end ModuleState

namespace Wasm.Module

/-- The memory, the data, the globals and the exports of the two modules are the same. -/
structure SameStorage (m m' : Module) : Prop where
  memory : m'.memory = m.memory
  segments : m'.segments = m.segments
  globals : m'.globals = m.globals
  exports : m'.exports = m.exports

variable {m m' : Module}

theorem sameStorage_intern (m : Module) (ft : FuncType) : m.SameStorage (m.intern ft).1 := by
  rw [m.intern_frame ft]
  exact ⟨rfl, rfl, rfl, rfl⟩

theorem sameStorage_addImport {module name : String} {ft : FuncType}
    (h : m.addImport module name ft = .ok (m', index)) : m.SameStorage m' := by
  obtain ⟨-, -, rfl⟩ := addImport_eq_ok h
  exact { m.sameStorage_intern ft with }

theorem sameStorage_declare (m : Module) (ft : FuncType) : m.SameStorage (m.declare ft).1 :=
  { m.sameStorage_intern ft with }

theorem sameStorage_define {body : Body} (h : m.define index body = .ok m') : m.SameStorage m' := by
  obtain ⟨f, -, -, -, rfl⟩ := define_eq_ok h
  exact ⟨rfl, rfl, rfl, rfl⟩

end Wasm.Module

theorem ModuleState.Keeps.of_sameStorage {st st' : ModuleState} (h : st.lower.Keeps st'.lower)
    (hmodule : st.module.SameStorage st'.module) : st.Keeps st' :=
  ⟨h, hmodule.memory, hmodule.segments, hmodule.globals, fun _ he _ => hmodule.exports ▸ he⟩

namespace Build

open ModuleState (Keeps)

variable {α : Type} {ctx : LowerContext} {st st' : ModuleState} {pos : Position} {typed : Prop}
  {body : Node} {name : String} {t : Ty} {tree : Tree} {lower : Lower α} {a : α}

theorem lift_eq : lift lower ctx st = (match (lower ctx st.lower).1 with
    | .ok value => (pure value : ExceptT Failure (StateM ModuleState) α)
    | .error failure => throw failure) { st with lower := (lower ctx st.lower).2 } := rfl

theorem lift_run :
    lift lower ctx st = ((lower ctx st.lower).1, { st with lower := (lower ctx st.lower).2 }) := by
  rw [lift_eq]
  cases (lower ctx st.lower).1 <;> rfl

theorem lift_eq_ok (h : lift lower ctx st = (.ok a, st')) :
    ∃ s', lower ctx st.lower = (.ok a, s') ∧ st' = { st with lower := s' } := by
  rw [lift_run] at h
  obtain ⟨hresult, hstate⟩ := Prod.mk.inj h
  exact ⟨_, Prod.ext hresult rfl, hstate.symm⟩

theorem steps_lift (h : Steps LowerState.Keeps lower) : Steps Keeps (lift lower) := by
  intro ctx st a st' hrun
  obtain ⟨s', hlower, rfl⟩ := lift_eq_ok hrun
  exact ⟨h ctx _ a s' hlower, rfl, rfl, rfl, fun _ he _ => he⟩

theorem steps_change {step : Module → Module × α} (h : ∀ m : Module, m.SameStorage (step m).1) :
    Steps Keeps (change step) := by
  rintro ctx st _ _ ⟨⟩
  exact .of_sameStorage (Std.Refl.refl st.lower) (h st.module)

theorem ofModule_eq_ok {result : Except ModuleFault α}
    (h : ofModule pos result ctx st = (.ok a, st')) : result = .ok a ∧ st' = st := by
  cases result with
  | ok value =>
    cases h
    exact ⟨rfl, rfl⟩
  | error fault => cases h

theorem calm_paramLayouts {params : List Ty} (h : typed → Ty.areWhole params) :
    Calm typed (paramLayouts params) := by
  induction params with
  | nil => exact .pure
  | cons t rest ih =>
    have hparts (ht : typed) : t.isWhole ∧ Ty.areWhole rest := by
      simpa [Ty.areWhole] using h ht
    refine (calm_layoutOf (fun ht => Ty.isAbsent_of_isWhole (hparts ht).1)).bind (fun l => ?_)
    exact calm_ofLayout.bind (fun _ => (ih (fun ht => (hparts ht).2)).bind (fun _ => .pure))

theorem calm_signature (pos : Position) (name : String) (h : typed → t.isFunction ∧ t.isWhole) :
    Calm typed (signature pos name t) := by
  cases t with
  | function occurrence params result =>
    have hparts (ht : typed) : Ty.areWhole params ∧ result.isWhole := by
      simpa [Ty.isWhole] using (h ht).2
    refine (calm_layoutOf (fun ht => Ty.isAbsent_of_isWhole (hparts ht).2)).bind (fun l => ?_)
    refine (calm_paramLayouts (fun ht => (hparts ht).1)).bind (fun _ => ?_)
    exact calm_ofLayout.bind (fun _ => (calm_requireMultiValue _).bind (fun _ => .pure))
  | _ => exact .throw ⟨rfl, fun ht => by cases (h ht).1⟩

theorem steps_signature : Steps LowerState.Keeps (signature pos name t) :=
  (calm_signature pos name nofun).keeps

theorem steps_bindFunction {f : LoweredFunction} : Steps Keeps (lift (Lower.bind pos name (.function f))) :=
  steps_lift (steps_bind (by simp))

theorem steps_importFunction : Steps Keeps (importFunction tree) := by
  unfold importFunction
  split
  · refine (steps_lift steps_signature).bind (fun f => ?_)
    intro ctx st a st' hrun
    obtain ⟨before, st₁, hget, hrun⟩ := Steps.bind_eq_ok hrun
    cases hget
    obtain ⟨⟨m, index⟩, st₂, hmodule, hrun⟩ := Steps.bind_eq_ok hrun
    obtain ⟨hadd, rfl⟩ := ofModule_eq_ok hmodule
    obtain ⟨_, st₃, hset, hrun⟩ := Steps.bind_eq_ok hrun
    cases hset
    have hbound := steps_bindFunction ctx _ _ st' hrun
    have hadded : Keeps st₂ ⟨m, st₂.bodies, st₂.lower⟩ :=
      .of_sameStorage (Std.Refl.refl st₂.lower) (Module.sameStorage_addImport hadd)
    exact Trans.trans hadded hbound
  · exact .pure

theorem steps_declareFunction : Steps Keeps (declareFunction tree) := by
  unfold declareFunction
  split
  · refine (steps_lift steps_signature).bind (fun f => ?_)
    exact .bind (steps_change (fun m => m.sameStorage_declare _)) (fun _ => steps_bindFunction)
  · exact .pure

/-- Emitting a body gives a function its code: what is emitted, and what it is defined as. -/
theorem emitFunction_eq_ok {a : Unit} (h : emitFunction pos index body ctx st = (.ok a, st')) :
    ∃ code emitted, body.load ⟨st.lower.labels, ctx.settings.features .signExt, []⟩
        ⟨st.module, st.lower.pool.scratch⟩ = (.ok code, emitted) ∧
      emitted.module.define index
        ⟨st.lower.pool.declared ++ emitted.scratch.declared, Instr.encode code⟩ = .ok st'.module ∧
      st'.lower = st.lower ∧ st'.bodies = st.bodies ++
        [⟨index, if ctx.settings.features .sourceMap then Instr.marks code else []⟩] := by
  obtain ⟨before, st₁, hget, hrun⟩ := Steps.bind_eq_ok h
  cases hget
  obtain ⟨settings, st₂, hread, hrun⟩ := Steps.bind_eq_ok hrun
  cases hread
  simp only [ReaderT.run, ExceptT.run, StateT.run] at hrun
  rcases hload : body.load ⟨st.lower.labels, ctx.settings.features .signExt, []⟩
    ⟨st.module, st.lower.pool.scratch⟩ with ⟨failure | code, emitted⟩
  · rw [hload] at hrun
    cases hrun
  · rw [hload] at hrun
    dsimp only at hrun
    split at hrun
    · cases hrun
    · obtain ⟨m, st₃, hdefine, hrun⟩ := Steps.bind_eq_ok hrun
      obtain ⟨hdefine, rfl⟩ := ofModule_eq_ok hdefine
      cases hrun
      exact ⟨code, emitted, rfl, hdefine, rfl, rfl⟩

theorem steps_emitFunction : Steps Keeps (emitFunction pos index body) := by
  intro ctx st a st' hrun
  obtain ⟨code, emitted, hload, hdefine, hlower, -⟩ := emitFunction_eq_ok hrun
  have hinterned := (Node.interns_of_load hload).module
  have hdefined := Module.sameStorage_define hdefine
  rw [hinterned] at hdefined
  have hkept : st.lower.Keeps st'.lower := by
    rw [hlower]
    exact Std.Refl.refl st.lower
  exact .of_sameStorage hkept ⟨hdefined.memory, hdefined.segments, hdefined.globals, hdefined.exports⟩

theorem steps_bindParams (params : List Tree) (layouts : List Layout) (slot : Nat) :
    Steps LowerState.Keeps (bindParams params layouts slot) := by
  induction params generalizing layouts slot with
  | nil => exact .pure
  | cons p params ih =>
    cases layouts with
    | nil => exact .pure
    | cons l layouts =>
      rw [bindParams]
      refine calm_ofLayout.keeps.bind (fun kinds => ?_)
      split
      · exact (steps_bind (by simp)).bind (fun _ => ih _ _)
      · exact ih _ _

theorem steps_functionBody (params : List Tree) (body : Tree) (exprBody : Bool)
    (f : LoweredFunction) : Steps LowerState.Fixed (functionBody params body exprBody f) := by
  have hbody : body.lowering.AllComposed False := body.composed nofun
  refine steps_inLevel ((steps_bindParams _ _ _).bind (fun _ => .ite ?_ ?_))
  · exact hbody.value.withTemporaries.keeps
  · exact hbody.statement.keeps.bind (fun _ => .ite .pure .pure)

/-- Slots and labels of its own do not matter for what is kept. -/
theorem steps_inFunction {pool : SlotPool} {build : Build α} (h : Steps Keeps build) :
    Steps Keeps (inFunction pool build) := by
  have hmodify {f : ModuleState → ModuleState} (hmodule : ∀ st, (f st).module = st.module)
      (hfixed : ∀ st : ModuleState, st.lower.Fixed (f st).lower) :
      Steps Keeps (modify f : Build Unit) :=
    .modify (fun st => .of_sameStorage (hfixed st).keeps (by rw [hmodule]; exact ⟨rfl, rfl, rfl, rfl⟩))
  refine .bind .get (fun outer => ?_)
  refine .bind (hmodify (fun _ => rfl) (fun _ => ⟨rfl, rfl, rfl⟩)) (fun _ => ?_)
  refine h.withReader.bind (fun _ => ?_)
  exact .bind (hmodify (fun _ => rfl) (fun _ => ⟨rfl, rfl, rfl⟩)) (fun _ => .pure)

theorem steps_defineFunction : Steps Keeps (defineFunction tree) := by
  unfold defineFunction
  split
  · refine (steps_lift (calm_find _ _).keeps).bind (fun binding => ?_)
    split
    · refine steps_inFunction (.bind (steps_lift ?_) (fun n => ?_))
      · exact (steps_functionBody _ _ _ _).mono (fun _ _ hfixed => hfixed.keeps)
      refine .bind .get (fun st => .ite .throw ?_)
      exact (steps_lift calm_simplifyBody.keeps).bind (fun _ => steps_emitFunction)
    · exact .pure
  · exact .pure

theorem steps_exportAs (hkind : kind ≠ .global) : Steps Keeps (exportAs pos name kind index) := by
  intro ctx st a st' hrun
  obtain ⟨before, st₁, hget, hrun⟩ := Steps.bind_eq_ok hrun
  cases hget
  split at hrun
  · cases hrun
  · cases hrun
    refine ⟨Std.Refl.refl st.lower, rfl, rfl, rfl, fun e he hglobal => ?_⟩
    obtain hold | hnew := List.mem_append.mp he
    · exact hold
    · rw [List.mem_singleton.mp hnew] at hglobal
      exact absurd hglobal hkind

theorem steps_initRoutine : Steps Keeps (initRoutine pos) := by
  refine .bind .get (fun st => .ite .pure ?_)
  refine .bind (steps_change (fun m => m.sameStorage_declare _)) (fun index => ?_)
  refine (steps_lift calm_simplifyBody.keeps).bind (fun body => ?_)
  refine steps_emitFunction.bind (fun _ => .bind .read (fun ctx => .ite ?_ ?_))
  · exact steps_change (fun m => ⟨rfl, rfl, rfl, rfl⟩)
  · exact steps_exportAs (by decide)

end Build

/-! ## The variables -/

/-- The variables among some declarations, in order. -/
def variablesOf (layout : Ty → Except LayoutDefect Layout) : List Tree → Except LayoutDefect (List Variable)
  | [] => .ok []
  | .varDecl info name _ _ :: rest => do
    let l ← layout info.type.unwrap
    return ⟨name, l⟩ :: (← variablesOf layout rest)
  | _ :: rest => variablesOf layout rest

namespace Build

open ModuleState (Keeps)

variable {decls : List Tree} {vars : List Variable} {ctx : LowerContext} {st st' : ModuleState}
  {pos : Position} {name : String} {info : TreeInfo} {a : Unit}

theorem globalVariable_eq_ok {declared : Ty} {init : Tree} {s s' : LowerState}
    (h : globalVariable (.varDecl info name declared init) ctx s = (.ok a, s'))
    (hstores : Stores vars s) :
    ∃ l, s.table.layout info.type.unwrap = .ok l ∧ Stores (vars ++ [⟨name, l⟩]) s' ∧
      s'.table = s.table := by
  obtain ⟨l, s₁, hlayout, hrun⟩ := Steps.bind_eq_ok h
  obtain ⟨hlayout, rfl⟩ := layoutOf_eq_ok hlayout
  -- what follows once the initial value is lowered
  have hrest (value : Node) {s₂ : LowerState} (hkeeps : s₁.Keeps s₂)
      (h : (do
        let state ← get
        let placed := state.static.declare info.pos l value
        set { state with static := placed.1 }
        Lower.bind info.pos name (.variable placed.2) : Lower Unit) ctx s₂ = (.ok a, s')) :
      Stores (vars ++ [⟨name, l⟩]) s' ∧ s'.table = s₁.table := by
    obtain ⟨before, s₃, hget, h⟩ := Steps.bind_eq_ok h
    cases hget
    obtain ⟨_, s₄, hset, h⟩ := Steps.bind_eq_ok h
    cases hset
    obtain ⟨hfresh, rfl⟩ := bind_eq_ok h
    exact ⟨(hstores.keeps hkeeps).declare info.pos ⟨name, l⟩ value hfresh, hkeeps.table⟩
  refine ⟨l, hlayout, ?_⟩
  split at hrun
  · exact hrest .absent (Std.Refl.refl s₁) hrun
  · obtain ⟨value, s₂, hvalue, hrun⟩ := Steps.bind_eq_ok hrun
    have hinit : Composed False _ := init.composed_initial (by rintro ⟨⟩)
    exact hrest value (hinit.keeps ctx s₁ value s₂ hvalue) hrun

theorem globalVariables_eq_ok
    (h : decls.forM (fun decl => lift (globalVariable decl)) ctx st = (.ok a, st'))
    (hstores : Stores vars st.lower) :
    ∃ more, variablesOf st.lower.table.layout decls = .ok more ∧
      Stores (vars ++ more) st'.lower ∧ st'.module = st.module := by
  induction decls generalizing st vars with
  | nil =>
    cases h
    exact ⟨[], rfl, by rwa [List.append_nil], rfl⟩
  | cons decl rest ih =>
    obtain ⟨_, st₁, hdecl, hrest⟩ := Steps.bind_eq_ok h
    obtain ⟨s₁, hlower, rfl⟩ := lift_eq_ok hdecl
    cases decl with
    | varDecl info name declared init =>
      obtain ⟨l, hlayout, hstores₁, htable⟩ := globalVariable_eq_ok hlower hstores
      obtain ⟨more, hmore, hstores', hmodule⟩ := ih hrest hstores₁
      rw [htable] at hmore
      refine ⟨⟨name, l⟩ :: more, ?_, ?_, hmodule⟩
      · rw [variablesOf, hlayout, hmore]
        rfl
      · rwa [List.append_assoc] at hstores'
    | _ =>
      cases hlower
      exact ih hrest hstores

/-! ## Memory and exports -/

theorem foldl_addData (segments : List Segment) (m : Module) :
    segments.foldl (fun m s => m.addData s.offset s.data) m =
      { m with segments := m.segments ++ segments } := by
  induction segments generalizing m with
  | nil => rw [List.append_nil, List.foldl_nil]
  | cons segment rest ih =>
    rw [List.foldl_cons, ih]
    simp [Module.addData]

/-- The memory phase: either nothing was reserved, or memory is declared with all its data. -/
theorem memory_eq_ok (h : memory pos ctx st = (.ok a, st')) :
    st.lower.static.isUsed = false ∧ st' = st ∨
    ∃ limit, Keeps { st with module :=
      { st.module with
        memory := some ⟨pagesFor st.lower.static.next, limit⟩
        segments := st.module.segments ++ st.lower.static.segments } } st' := by
  obtain ⟨before, st₁, hget, hrun⟩ := Steps.bind_eq_ok h
  cases hget
  dsimp only at hrun
  split at hrun
  next hunused =>
    cases hrun
    rw [Bool.and_eq_true, Bool.not_eq_true'] at hunused
    exact .inl ⟨hunused.1, rfl⟩
  · obtain ⟨context', st₂, hread, hrun⟩ := Steps.bind_eq_ok hrun
    cases hread
    split at hrun
    · cases hrun
    · obtain ⟨_, st₃, hchange, hrun⟩ := Steps.bind_eq_ok hrun
      cases hchange
      refine .inr ⟨ctx.settings.maxPages.toUInt64.toUInt32, ?_⟩
      have hexport : Steps Keeps (if ctx.settings.features .exportMemory then
          exportAs pos "memory" .memory 0 else pure ()) :=
        .ite (steps_exportAs (by decide)) .pure
      have hkeeps := hexport ctx _ a st' hrun
      rwa [foldl_addData] at hkeeps

/-- Every exported global holds the address of the cell of its name. -/
def ExportsCells (cells : List Cell) (m : Module) : Prop :=
  ∀ e ∈ m.exports, e.kind = .global → ∃ c ∈ cells, c.name = e.name ∧
    m.globals[e.index]? = some ⟨.i32, false, c.start.toInt32.toInt64⟩

namespace ExportsCells

variable {cells : List Cell} {m : Module} {name : String}

theorem addExport (h : ExportsCells cells m) (hkind : kind ≠ .global) :
    ExportsCells cells (m.addExport name kind index) := by
  intro e he hglobal
  obtain hold | hnew := List.mem_append.mp he
  · exact h e hold hglobal
  · rw [List.mem_singleton.mp hnew] at hglobal
    exact absurd hglobal hkind

/-- A new global for a cell, exported under the name of the cell. -/
theorem addGlobal (h : ExportsCells cells m) {c : Cell} (hc : c ∈ cells) (hname : c.name = name) :
    ExportsCells cells ((m.addGlobal ⟨.i32, false, c.start.toInt32.toInt64 + 0⟩).1.addExport name
      .global m.globals.length) := by
  intro e he hglobal
  obtain hold | hnew := List.mem_append.mp he
  · obtain ⟨c', hc', hname', hget⟩ := h e hold hglobal
    obtain ⟨hlt, -⟩ := List.getElem?_eq_some_iff.mp hget
    refine ⟨c', hc', hname', ?_⟩
    change (m.globals ++ _)[e.index]? = _
    rw [List.getElem?_append_left hlt, hget]
  · rw [List.mem_singleton.mp hnew]
    refine ⟨c, hc, hname, ?_⟩
    change (m.globals ++ _)[m.globals.length]? = _
    simp

end ExportsCells

theorem exportAs_eq_ok (h : exportAs pos name kind index ctx st = (.ok a, st')) :
    isExported st.module name = false ∧ st' = { st with module := st.module.addExport name kind index } := by
  obtain ⟨before, st₁, hget, hrun⟩ := Steps.bind_eq_ok h
  cases hget
  split at hrun
  · cases hrun
  next hfree =>
    cases hrun
    exact ⟨by simpa using hfree, rfl⟩

/-- Exporting a name changes exports and globals only; an exported variable gives its address. -/
theorem exportName_eq_ok (h : exportName pos name ctx st = (.ok a, st'))
    (hstores : Stores vars st.lower)
    (hexports : ExportsCells (Cell.place StaticMemory.base vars) st.module) :
    ExportsCells (Cell.place StaticMemory.base vars) st'.module ∧ st'.lower = st.lower ∧
      st'.module.memory = st.module.memory ∧ st'.module.segments = st.module.segments := by
  obtain ⟨before, st₁, hget, hrun⟩ := Steps.bind_eq_ok h
  cases hget
  rcases hfound : st.lower.names.lookup name with _ | storage | storage | f
  · rw [hfound] at hrun
    cases hrun
  · rw [hfound] at hrun
    cases storage with
    | data info addr offset =>
      rw [Chain.lookup_of_tail_eq_nil hstores.outer] at hfound
      obtain ⟨c, hc, hname, hstorage⟩ := hstores.stored name info addr offset hfound
      obtain ⟨addr', hcell, hconstant⟩ := c.constant?_storage hstores.pointer
      rw [hcell] at hstorage
      obtain ⟨-, rfl, rfl⟩ := Node.data.inj hstorage
      obtain ⟨index, st₂, hchange, hrun⟩ := Steps.bind_eq_ok hrun
      rw [hconstant] at hchange
      cases hchange
      obtain ⟨-, rfl⟩ := exportAs_eq_ok hrun
      exact ⟨hexports.addGlobal hc hname, rfl, rfl, rfl⟩
    | _ =>
      cases hrun
      exact ⟨hexports, rfl, rfl, rfl⟩
  · rw [hfound] at hrun
    cases hrun
    exact ⟨hexports, rfl, rfl, rfl⟩
  · rw [hfound] at hrun
    obtain ⟨-, rfl⟩ := exportAs_eq_ok hrun
    exact ⟨hexports.addExport (by decide), rfl, rfl, rfl⟩

theorem exportNames_eq_ok {names : List String}
    (h : names.forM (exportName pos) ctx st = (.ok a, st')) (hstores : Stores vars st.lower)
    (hexports : ExportsCells (Cell.place StaticMemory.base vars) st.module) :
    ExportsCells (Cell.place StaticMemory.base vars) st'.module ∧ st'.lower = st.lower ∧
      st'.module.memory = st.module.memory ∧ st'.module.segments = st.module.segments := by
  induction names generalizing st with
  | nil =>
    cases h
    exact ⟨hexports, rfl, rfl, rfl⟩
  | cons name rest ih =>
    obtain ⟨_, st₁, hname, hrest⟩ := Steps.bind_eq_ok h
    obtain ⟨hexports₁, hlower, hmemory, hsegments⟩ := exportName_eq_ok hname hstores hexports
    obtain ⟨hexports', hlower', hmemory', hsegments'⟩ := ih hrest (hlower ▸ hstores) hexports₁
    exact ⟨hexports', hlower'.trans hlower, hmemory'.trans hmemory, hsegments'.trans hsegments⟩

/-- What the phases together make of the variables of a module. -/
structure Arranged (vars : List Variable) (st : ModuleState) : Prop where
  stores : Stores vars st.lower
  exported : ExportsCells (Cell.place StaticMemory.base vars) st.module
  memory : st.lower.static.isUsed = false ∧ st.module.memory = none ∧ st.module.segments = [] ∨
    ∃ limit, st.module.memory = some ⟨pagesFor st.lower.static.next, limit⟩ ∧
      st.module.segments = st.lower.static.segments

theorem moduleOf_eq_ok {imports : List Tree} {exports : List String} {lower : LowerState}
    (h : moduleOf (.module info imports decls exports) ctx ⟨.empty, [], lower⟩ = (.ok a, st'))
    (hstart : Stores [] lower) :
    ∃ vars, variablesOf lower.table.layout decls = .ok vars ∧ Arranged vars st' := by
  obtain ⟨_, st₁, himports, h⟩ := Steps.bind_eq_ok h
  obtain ⟨_, st₂, hdeclared, h⟩ := Steps.bind_eq_ok h
  obtain ⟨_, st₃, hvariables, h⟩ := Steps.bind_eq_ok h
  obtain ⟨_, st₄, hdefined, h⟩ := Steps.bind_eq_ok h
  obtain ⟨_, st₅, hinit, h⟩ := Steps.bind_eq_ok h
  obtain ⟨_, st₆, hmemory, hexports⟩ := Steps.bind_eq_ok h
  have hbefore : Keeps ⟨.empty, [], lower⟩ st₂ := by
    have hkept₁ := Steps.forM imports (fun tree _ => steps_importFunction) _ _ _ _ himports
    have hkept₂ := Steps.forM decls (fun tree _ => steps_declareFunction) _ _ _ _ hdeclared
    exact Trans.trans hkept₁ hkept₂
  obtain ⟨vars, hvars, hstores, hmodule⟩ := globalVariables_eq_ok hvariables (hstart.keeps hbefore.lower)
  rw [hbefore.lower.table] at hvars
  have hafter : Keeps st₃ st₅ := by
    have hkept₁ := Steps.forM decls (fun tree _ => steps_defineFunction) _ _ _ _ hdefined
    exact Trans.trans hkept₁ (steps_initRoutine _ _ _ _ hinit)
  have hstores₅ := hstores.keeps hafter.lower
  have hmemory₅ : st₅.module.memory = none := by
    rw [hafter.memory, hmodule, hbefore.memory]
    rfl
  have hsegments₅ : st₅.module.segments = [] := by
    rw [hafter.segments, hmodule, hbefore.segments]
    rfl
  have hexports₅ : ∀ e ∈ st₅.module.exports, e.kind ≠ .global := by
    intro e he hkind
    have hold := hafter.exports e he hkind
    rw [hmodule] at hold
    exact absurd (hbefore.exports e hold hkind) (by simp [Module.empty])
  refine ⟨vars, hvars, ?_⟩
  obtain ⟨hunused, rfl⟩ | ⟨limit, hkept⟩ := memory_eq_ok hmemory
  · obtain ⟨hcells, hlower, hmemory', hsegments'⟩ := exportNames_eq_ok hexports hstores₅
      (fun e he hkind => absurd hkind (hexports₅ e he))
    refine ⟨hlower ▸ hstores₅, hcells, .inl ⟨hlower ▸ hunused, ?_, ?_⟩⟩
    · rw [hmemory', hmemory₅]
    · rw [hsegments', hsegments₅]
  · have hstores₆ := hstores₅.keeps hkept.lower
    obtain ⟨hcells, hlower, hmemory', hsegments'⟩ := exportNames_eq_ok hexports hstores₆
      (fun e he hkind => absurd hkind (hexports₅ e (hkept.exports e he hkind)))
    refine ⟨hlower ▸ hstores₆, hcells, .inr ⟨limit, ?_, ?_⟩⟩
    · rw [hmemory', hkept.memory, hlower, hkept.lower.static]
    · rw [hsegments', hkept.segments, hlower, hkept.lower.static, hsegments₅, List.nil_append]

end Build

end TreeWasm
