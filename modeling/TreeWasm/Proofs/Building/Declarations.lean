import TreeWasm.Proofs.Building.Bodies
import TreeWasm.Proofs.Building.Functions
import TreeWasm.Proofs.Typing.Modules

/-! # Building declarations

A module is built in phases. The functions are introduced first, so that every later phase knows their
signatures. Then variables get their cells, and the assignments of initial values that cannot be data
are put aside. `Build.Introduced` and `Scene.Rests` say where lowering stands between these steps, and
what has been built of the module is right by `Scene.Assembles`.
-/

namespace TreeWasm

open Wasm

variable {ctx : LowerContext} {s' : LowerState} {name : String} {binding : Binding}
  {failure : Failure} {t : Ty} {tree init : Tree} {decls : List Tree} {l : Layout}

/-- A context outside of all constructs. -/
structure LowerContext.Outermost (ctx : LowerContext) : Prop where
  address : ctx.address.scalar? = some .pointer
  faithful : ctx.address.isFaithful
  breakTo : ctx.breakTo = none
  continueTo : ctx.continueTo = none

theorem LowerContext.Outermost.admits (h : ctx.Outermost) (s : LowerState) : ctx.Admits s where
  address := h.address
  faithful := h.faithful
  breakTo := by simp [h.breakTo]
  continueTo := by simp [h.continueTo]

theorem LowerContext.Outermost.around (h : ctx.Outermost) : ctx.around = [] := by
  simp [LowerContext.around, h.breakTo, h.continueTo]

namespace Node

variable {labels labels' : Labels} {n m : Node}

theorem Stage.shaped {functions : Nat → Option FuncType} (h : Stage labels n labels' m)
    (hn : n.Shaped functions) : m.Shaped functions := by
  induction h with
  | built => exact hn
  | folded _ hbecomes ih => exact (hbecomes.shaped ih).1
  | recounted _ ih => exact ih

/-- The branches of a body that was built from the outside are counted. -/
theorem Formed.counted {scene : Scene} {s : LowerState} (h : n.Formed scene [])
    (hsupplies : s.Supplies scene s' n.demand) : n.Counted s'.labels where
  uses := fun l => Nat.le_trans (Nat.le_add_left _ _) (hsupplies.uses l)
  enclosed := h.enclosed
  distinct := hsupplies.distinct

end Node

namespace Lower

variable {ctx : LowerContext} {s : LowerState} {n : Node}

theorem does_simplify : (simplify n).Does ctx s [] (fun m s' => s' = s ∧ n.Stage s.labels s.labels m) := by
  refine .read (.ite (fun _ => ?_) (fun _ => .pure ⟨rfl, .built⟩))
  exact does_fold.mono (fun m s' ⟨hbecomes, hs⟩ => ⟨hs, .folded .built hbecomes⟩)

theorem does_simplifyBody :
    (simplifyBody n).Does ctx s [] (fun m s' => n.Stage s.labels s'.labels m ∧
      ∃ labels, s' = { s with labels := labels }) := by
  refine .read (.ite (fun _ => ?_) (fun _ => .pure ⟨.built, s.labels, rfl⟩))
  refine does_fold.bind_nil ?_
  rintro m _ ⟨hbecomes, rfl⟩
  have hfolded := Node.Stage.folded .built hbecomes
  refine .get (.bind_nil (P := fun _ s' => s' = _) (.set rfl rfl) ?_)
  rintro _ _ rfl
  refine .ite (fun _ => does_fold.mono ?_) (fun _ => .pure ⟨.recounted hfolded, _, rfl⟩)
  rintro k _ ⟨hagain, rfl⟩
  exact ⟨.folded (.recounted hfolded) hagain, _, rfl⟩

theorem allowed_bind {typed : Prop} {pos : Position}
    (h : Lower.bind pos name binding ctx s = (.error failure, s')) : failure.Allowed typed := by
  rw [bind_run] at h
  split at h
  · cases h
    exact ⟨rfl, fun _ => rfl⟩
  · cases h

end Lower

namespace Build

open Lower (does_layoutOf does_ofLayout does_requireMultiValue does_bind)
open LowerState (Settles Supplies Takes)
open Tree (Defines IsFunction AreFunctions AreGlobals IsModule)

variable {α : Type} {scene : Scene} {names names' : Chain TypedName} {uses : List Resolution}
  {ctx : LowerContext} {s : LowerState} {st : ModuleState} {pos : Position} {name : String}

/-- A step of lowering that meets no node without a type and keeps the discipline of slots. -/
theorem does_lift {x : Lower α} {P : α → LowerState → Prop} (h : x.Does ctx st.lower uses P)
    (hallowed : ∀ {failure s'}, x ctx st.lower = (.error failure, s') → failure.Allowed True) :
    (lift x).Does ctx st uses (fun a st' => ∃ s', P a s' ∧ st' = { st with lower := s' }) where
  ok := by
    intro a st' hrun
    obtain ⟨s', hlower, rfl⟩ := lift_eq_ok hrun
    obtain ⟨hlog, ha⟩ := h.ok a s' hlower
    exact ⟨hlog, s', ha, rfl⟩
  error := by
    intro failure st' hrun
    rw [lift_run] at hrun
    obtain ⟨hresult, rfl⟩ := Prod.mk.inj hrun
    obtain ⟨hscoping, hlog⟩ := h.error failure _ (Prod.ext hresult rfl)
    obtain ⟨hslots, htyped⟩ := hallowed (Prod.ext hresult rfl)
    exact ⟨Failure.isOrdinary_iff.mpr ⟨hscoping, hslots, htyped trivial⟩, hlog⟩

theorem does_lift_bind (hfresh : st.lower.names.lookupLocal name = none) :
    (lift (Lower.bind pos name binding)).Does ctx st [] (fun _ st' => st' =
      { st with lower := { st.lower with names := st.lower.names.define name binding } }) := by
  refine .mono (does_lift (does_bind hfresh) Lower.allowed_bind) ?_
  rintro _ _ ⟨_, rfl, rfl⟩
  rfl

theorem does_change {step : Module → Module × α} :
    (change step).Does ctx st [] (fun a st' => a = (step st.module).2 ∧
      st' = { st with module := (step st.module).1 }) where
  ok := by
    rintro _ _ ⟨⟩
    exact ⟨rfl, rfl, rfl⟩
  error := by
    rintro _ _ ⟨⟩

/-! ## Functions are introduced -/

theorem does_paramLayouts {params : List Ty} :
    (paramLayouts params).Does ctx s [] (fun found s' => s' = s ∧ ∃ layouts,
      found = (layouts, layouts.flatMap Layout.slots) ∧
      List.Forall₂ (fun t l => s.table.layout t = .ok l) params layouts ∧
      ∀ l ∈ layouts, l.leaves.isOk) := by
  induction params with
  | nil => exact .pure ⟨rfl, [], rfl, .nil, nofun⟩
  | cons t rest ih =>
    refine .bind_nil does_layoutOf ?_
    rintro l _ ⟨hl, rfl⟩
    refine .bind_nil does_ofLayout ?_
    rintro kinds _ ⟨hkinds, rfl⟩
    obtain ⟨hok, rfl⟩ := Layout.slots_of_flatten hkinds
    refine ih.bind_nil ?_
    rintro _ _ ⟨rfl, layouts, rfl, hlayouts, hall⟩
    exact .pure ⟨rfl, l :: layouts, rfl, .cons hl hlayouts, List.forall_mem_cons.mpr ⟨hok, hall⟩⟩

/-- Under any number that has the signature, the function can be called by its type. -/
theorem does_signature :
    (signature pos name t).Does ctx s [] (fun f s' => s' = s ∧ f.declared = pos ∧
      ∀ scene : Scene, scene.types = s.table → ∀ index, scene.functions index = some f.signature →
        scene.Calls t { f with index := index }) := by
  cases t with
  | function occurrence params result =>
    refine .bind_nil does_layoutOf ?_
    rintro l _ ⟨hl, rfl⟩
    refine .bind_nil does_paramLayouts ?_
    rintro _ _ ⟨rfl, layouts, rfl, hlayouts, hall⟩
    refine .bind_nil does_ofLayout ?_
    rintro results _ ⟨hresults, rfl⟩
    obtain ⟨hok, rfl⟩ := Layout.slots_of_flatten hresults
    refine .bind_nil does_requireMultiValue ?_
    rintro _ s' ⟨-, rfl⟩
    refine .pure ⟨rfl, rfl, fun scene htypes index hindex => ?_⟩
    exact ⟨⟨occurrence, params, result, rfl, htypes ▸ hlayouts, htypes ▸ hl⟩, hall, hok, rfl, hindex⟩
  | _ => exact .throw rfl

/-- Since the start nothing but names of functions was bound, and the module has these functions
without bodies. -/
structure Introduced (start : LowerState) (names : Chain TypedName) (st : ModuleState) : Prop where
  lower : ∃ chain, st.lower = { start with names := chain }
  found : ∀ name value, names.lookup name = some value → ∃ f,
    st.lower.names.lookup name = some (.function f) ∧ f.declared = value.declared ∧
      value.isFunction ∧ Scene.Calls ⟨start.table, st.module.signature?, False⟩ value.type f
  unbound : ∀ name, names.lookupLocal name = none → st.lower.names.lookupLocal name = none
  quiet : Module.empty.Quiet st.module
  storage : Module.empty.SameStorage st.module
  unstarted : st.module.start = none
  known : ∀ signature ∈ st.module.indices, signature < st.module.types.length
  idle : st.lower.Idle
  unnoted : st.bodies = []

variable {start : LowerState}

theorem introduced_empty (hnames : start.names = [Level.empty]) (hidle : start.Idle) :
    Introduced start [Level.empty] ⟨.empty, [], start⟩ where
  lower := ⟨start.names, rfl⟩
  found := nofun
  unbound := by
    intro name _
    rw [hnames]
    rfl
  quiet := ⟨.refl _, fun _ hf _ => hf⟩
  storage := ⟨rfl, rfl, rfl, rfl⟩
  unstarted := rfl
  known := nofun
  idle := hidle
  unnoted := rfl

theorem Introduced.define (h : Introduced start names st) {m : Module} {value : TypedName}
    {f : LoweredFunction} (hquiet : st.module.Quiet m) (hstorage : st.module.SameStorage m)
    (hstart : m.start = st.module.start)
    (hknown : ∀ signature ∈ m.indices, signature < m.types.length)
    (hfresh : names.lookupLocal name = none) (hdeclared : f.declared = value.declared)
    (hfunction : value.isFunction)
    (hcalls : Scene.Calls ⟨start.table, m.signature?, False⟩ value.type f) :
    Introduced start (names.define name value)
      ⟨m, st.bodies, { st.lower with names := st.lower.names.define name (.function f) }⟩ where
  lower := by
    obtain ⟨chain, hlower⟩ := h.lower
    exact ⟨chain.define name (.function f), by rw [hlower]⟩
  found := by
    intro other value' hvalue'
    rw [Chain.lookup_define] at hvalue' ⊢
    split at hvalue'
    next hother =>
      cases hvalue'
      exact ⟨f, if_pos hother, hdeclared, hfunction, hcalls⟩
    next hother =>
      obtain ⟨g, hfound, hdeclared', hfunction', hcalls'⟩ := h.found other value' hvalue'
      refine ⟨g, (if_neg hother).trans hfound, hdeclared', hfunction', ?_⟩
      exact { hcalls' with index := hquiet.toGrows.signature? hcalls'.index }
  unbound := by
    intro other hother
    rw [Chain.lookupLocal_define] at hother ⊢
    split at hother
    · cases hother
    next hne => rw [if_neg hne, h.unbound other hother]
  quiet := h.quiet.trans hquiet
  storage :=
    ⟨hstorage.memory.trans h.storage.memory, hstorage.segments.trans h.storage.segments,
      hstorage.globals.trans h.storage.globals, hstorage.exports.trans h.storage.exports⟩
  unstarted := hstart.trans h.unstarted
  known := hknown
  idle := h.idle.define (h.unbound name hfresh) rfl rfl st.lower.static
  unnoted := h.unnoted

theorem does_importFunction (htree : tree.Callable) (h : Introduced start names st)
    (hnames : Defines names tree.imported?.toList names') :
    (importFunction tree).Does ctx st [] (fun _ => Introduced start names') := by
  cases tree with
  | importDecl info source field name t =>
    cases hnames with
    | cons hfresh hnames =>
    cases hnames
    have hcalm := calm_signature info.pos name (fun _ : True => htree _ (.inl rfl))
    refine .bind_nil (does_lift does_signature hcalm.error) ?_
    rintro f st' ⟨s', ⟨rfl, hdeclared, hcalls⟩, rfl⟩
    refine .get (.bind_nil does_ofModule ?_)
    rintro ⟨m, index⟩ st' ⟨hadd, rfl⟩
    obtain ⟨hquiet, hstart, hsignature⟩ := Module.quiet_addImport hadd
    refine .bind_nil (P := fun _ st' => st' = { st with module := m }) (.set rfl rfl) ?_
    rintro _ _ rfl
    refine .mono (does_lift_bind (h.unbound name hfresh)) ?_
    rintro _ _ rfl
    obtain ⟨chain, hlower⟩ := h.lower
    refine h.define hquiet (Module.sameStorage_addImport hadd) hstart (Module.known_addImport hadd h.known)
      hfresh hdeclared rfl (hcalls _ ?_ _ hsignature)
    rw [hlower]
  | _ =>
    cases hnames
    exact .pure h

theorem does_declareFunction (htree : tree.Callable) (h : Introduced start names st)
    (hnames : Defines names tree.function?.toList names') :
    (declareFunction tree).Does ctx st [] (fun _ => Introduced start names') := by
  cases tree with
  | funcDecl info name params body result exprBody =>
    cases hnames with
    | cons hfresh hnames =>
    cases hnames
    have hcalm := calm_signature info.pos name (fun _ : True => htree _ (.inr rfl))
    refine .bind_nil (does_lift does_signature hcalm.error) ?_
    rintro f st' ⟨s', ⟨rfl, hdeclared, hcalls⟩, rfl⟩
    refine .bind_nil does_change ?_
    rintro index st' ⟨rfl, rfl⟩
    refine .mono (does_lift_bind (h.unbound name hfresh)) ?_
    rintro _ _ rfl
    obtain ⟨chain, hlower⟩ := h.lower
    refine h.define (st.module.quiet_declare _) (st.module.sameStorage_declare _)
      (st.module.enlarges_declare _).start (Module.known_declare h.known)
      hfresh hdeclared rfl (hcalls _ ?_ _ (st.module.signature?_declare _))
    rw [hlower]
  | _ =>
    cases hnames
    exact .pure h

theorem does_introduceAll {step : Tree → Build Unit} {given? : Tree → Option (String × TypedName)}
    (hstep : ∀ {tree names names' st}, tree.Callable → Introduced start names st →
      Defines names (given? tree).toList names' →
      (step tree).Does ctx st [] (fun _ => Introduced start names'))
    {trees : List Tree} (htrees : ∀ tree ∈ trees, tree.Callable) (h : Introduced start names st)
    (hnames : Defines names (trees.filterMap given?) names') :
    (trees.forM step).Does ctx st [] (fun _ => Introduced start names') := by
  induction trees generalizing names st with
  | nil =>
    cases hnames
    exact .pure h
  | cons tree rest ih =>
    rw [Typing.filterMap_cons_toList] at hnames
    obtain ⟨inner, hfirst, hrest⟩ := hnames.of_append
    rw [List.forall_mem_cons] at htrees
    exact (hstep htrees.1 h hfirst).bind_nil (fun _ _ hintroduced => ih htrees.2 hintroduced hrest)

theorem does_declarations {imports : List Tree} (h : Introduced start names st)
    (htrees : ∀ tree ∈ imports ++ decls, tree.Callable)
    (hnames : Defines names (imports.filterMap Tree.imported? ++ decls.filterMap Tree.function?) names') :
    (declarations imports decls).Does ctx st [] (fun _ => Introduced start names') := by
  obtain ⟨inner, himports, hdecls⟩ := hnames.of_append
  rw [List.forall_mem_append] at htrees
  exact (does_introduceAll does_importFunction htrees.1 h himports).bind_nil
    (fun _ _ hintroduced => does_introduceAll does_declareFunction htrees.2 hintroduced hdecls)

end Build

/-! ## Variables -/

namespace Scene

open LowerState (Settles Supplies Takes)

variable {scene : Scene} {names : Chain TypedName} {ctx : LowerContext}
  {start s s' : LowerState} {name : String}

/-- Where lowering stands between the parts of a module: what the names stand for does not depend on
slots, and the assignments put aside were built since the start. -/
structure Rests (scene : Scene) (ctx : LowerContext) (start : LowerState)
    (names : Chain TypedName) (s : LowerState) : Prop where
  follows : ∀ pool, scene.Follows names { s with pool := pool }
  inits : scene.MakesAll ctx start s.static.inits s
  address : s.static.address.isFaithful
  idle : s.Idle

section

variable (h : scene.Rests ctx start names s)
include h

/-- What names stand for depends on neither slots nor labels. -/
theorem Rests.follows_within {pool : SlotPool} {labels : Labels} :
    scene.Follows names { s with pool := pool, labels := labels } :=
  (h.follows pool).mono rfl (.refl _) id (fun _ => rfl) (h.follows pool).unbound

theorem Rests.formed_inits (hctx : ctx.Outermost) (pos : Position) :
    (Node.seq ⟨pos, .unit⟩ s.static.inits).Formed scene [] := by
  have hsequence : Layout.unit.Sequence (s.static.inits.map Node.layout ++ []) :=
    sequence_of_void h.inits.void rfl
  rw [List.append_nil] at hsequence
  exact .of_parts rfl (hctx.around ▸ h.inits.formed) rfl hsequence

/-- A state with the same names, variables, slots and labels. -/
theorem Rests.of_same (htable : s'.table = s.table) (hstatic : s'.static = s.static)
    (hnames : s'.names = s.names) (hpool : s'.pool = s.pool) (hlabels : s'.labels = s.labels)
    (htemps : s'.temps = s.temps) (hmemory : s.needsMemory = true → s'.needsMemory = true) :
    scene.Rests ctx start names s' where
  follows := by
    intro pool
    refine (h.follows pool).mono htable (.refl _) hmemory (fun name => ?_) (fun name hname => ?_)
    · dsimp only
      rw [hnames]
    · dsimp only
      rw [hnames]
      exact (h.follows pool).unbound name hname
  inits := by
    have hsame : s.Supplies scene s' .none := by
      refine ⟨⟨htable, hpool ▸ .refl _, Nat.le_of_eq (by rw [hlabels])⟩, hmemory, ?_, nofun,
        List.nodup_nil, nofun⟩
      exact fun l => Nat.le_of_eq (by rw [hlabels]; rfl)
    rw [hstatic]
    exact { h.inits with toSupplies := by simpa using h.inits.toSupplies.append hsame }
  address := hstatic ▸ h.address
  idle := h.idle.of_same hpool htemps hnames

end

theorem houses_cell {memory : StaticMemory} {pos : Position} (hl : scene.types.layout t = .ok l)
    (haddress : memory.address.isFaithful) (hstatics : scene.statics) :
    scene.Houses s t (.data ⟨pos, l⟩ (.int32 ⟨pos, memory.address⟩ memory.next.toInt32) 0) where
  layout := hl
  place := rfl
  free := ⟨rfl, rfl⟩
  provided := by
    intro need hneed
    obtain rfl := List.mem_singleton.mp hneed
    exact .inr hstatics
  shaped := by
    refine .intro (TypeTable.isFaithful_layout hl) trivial (fun c hc => ?_)
    obtain rfl := List.mem_singleton.mp hc
    exact Node.shaped_of_constant? rfl haddress

/-- A variable gets its cell, and its initial value may be put aside to be assigned later. -/
theorem Rests.declare (h : scene.Rests ctx start names s) (hstatics : scene.statics) (hidle : s'.Idle)
    (hfresh : s'.names.lookupLocal name = none) (hl : scene.types.layout t = .ok l) {value : Node}
    (hformed : value.isAbsent = false → value.Formed scene ctx.around)
    (htakes : s.Takes scene s' value.demand) (hstatic : s'.static = s.static) (pos : Position) :
    scene.Rests ctx start (names.define name ⟨t, false, pos⟩) { s' with
      static := (s'.static.declare pos l value).1
      names := s'.names.define name (.variable (s'.static.declare pos l value).2) } := by
  have haddress : s'.static.address.isFaithful := hstatic ▸ h.address
  obtain ⟨segments, inits, hdeclare, -, hinits⟩ := s'.static.declare_spec pos ⟨name, l⟩ value
  change s'.static.declare pos l value = _ at hdeclare
  have hhouses (s : LowerState) :
      scene.Houses s t (Cell.storage ⟨⟨name, l⟩, s'.static.next⟩ s'.static.address pos) :=
    houses_cell hl haddress hstatics
  rw [hdeclare]
  have hsettles (inits : List Node) : s'.Settles { s' with
      static := ⟨s'.static.next + l.size, segments, inits, s'.static.address⟩
      names := s'.names.define name
        (.variable (Cell.storage ⟨⟨name, l⟩, s'.static.next⟩ s'.static.address pos)) } :=
    ⟨rfl, .refl _, rfl, rfl⟩
  refine ⟨fun pool => ?_, ?_, haddress, hidle.define hfresh rfl rfl _⟩
  · have hfollows : scene.Follows names { s' with
        static := ⟨s'.static.next + l.size, segments, inits, s'.static.address⟩, pool := pool } := by
      refine (h.follows pool).mono htakes.grows.table (.refl _) htakes.memory (fun other => ?_)
        (fun other hother => ?_)
      · dsimp only
        rw [htakes.names]
      · dsimp only
        rw [htakes.names]
        exact (h.follows pool).unbound other hother
    exact hfollows.define name ⟨rfl, rfl, hhouses _⟩
  · have hbefore : s'.static.inits = s.static.inits := by rw [hstatic]
    rw [hbefore] at hinits
    obtain heq | ⟨hpresent, heq⟩ := hinits
    · have hvalue := h.inits.toSupplies.append htakes.toSupplies
      rw [heq]
      exact { h.inits with
        toSupplies := (hvalue.within Demand.within_append_left).settle (hsettles _) }
    · have hcell := Supplies.still (hhouses s).free (hhouses s).provided
      have hassign := h.inits.toSupplies.append (hcell.append htakes.toSupplies)
      rw [heq]
      refine ⟨?_, fun n hn => ?_, fun n hn => ?_⟩
      · simpa using hassign.settle (hsettles _)
      · obtain hn | hn := List.mem_append.mp hn
        · exact h.inits.formed n hn
        · obtain rfl := List.mem_singleton.mp hn
          refine .of_parts rfl (fun c hc => ?_) rfl trivial
          obtain rfl | hc := List.mem_cons.mp hc
          · exact .of_free (hhouses s).shaped (hhouses s).free
          · exact List.mem_singleton.mp hc ▸ hformed hpresent
      · obtain hn | hn := List.mem_append.mp hn
        · exact h.inits.void n hn
        · obtain rfl := List.mem_singleton.mp hn
          rfl

end Scene

namespace Build

open Lower (does_bind does_layoutOf does_simplify)
open LowerState (Keeps Takes)
open Tree (AreGlobals IsValue)

variable {scene : Scene} {names names' : Chain TypedName} {uses : List Resolution}
  {ctx : LowerContext} {start s : LowerState} {st : ModuleState} {statics : Prop}

/-- The initial value of a variable is built as the check saw it. -/
theorem does_initialValue (hctx : ctx.Outermost) (hinit : IsValue scene.types {} names uses init)
    (h : scene.Rests ctx start names s) :
    Lower.Does (Lower.withTemporaries do Lower.simplify (← init.lowering.value)) ctx s uses
      (fun value s' => (value.Formed scene ctx.around ∧ s.Takes scene s' value.demand) ∧
        s'.static = s.static ∧ s.Advances True s') := by
  have hgoes : scene.Goes {} names ctx s :=
    ⟨h.follows s.pool, hctx.admits s, (by rintro ⟨⟩), (by rintro ⟨⟩), (by rintro ⟨⟩)⟩
  have hcomposed : Lower.Composed False _ := init.composed_initial (by rintro ⟨⟩)
  have hvalue : Lower.Composed False _ :=
    (init.composed (by rintro ⟨⟩)).value.bind (fun n => .calm (Lower.calm_simplify n))
  have horderly : Lower.Orderly False True _ ctx s := (hvalue.orderly ctx h.idle.disciplined).withTemporaries
  refine .and_of (Lower.does_withTemporaries ?_ ?_) (fun value s' hrun =>
    ⟨(hcomposed.keeps ctx s value s' hrun).static, horderly.ok value s' hrun⟩)
  · refine (hinit.builds.1 hgoes).bind_last (fun n s₁ hn => does_simplify.mono ?_)
    rintro m _ ⟨rfl, hstage⟩
    rw [hctx.around]
    have hformed := hn.formed
    rw [hctx.around] at hformed
    have hcounted := hstage.counted (hformed.counted hn.toSupplies)
    exact ⟨⟨hcounted.enclosed, hstage.shaped hformed.shaped⟩, hn.toTakes.within hstage.within⟩
  · exact fun value s₁ s₂ hvalue hsettles hnames => ⟨hvalue.1, hvalue.2.settle hsettles hnames⟩

theorem does_globalVariable {info : TreeInfo} {declared : Ty} (hctx : ctx.Outermost)
    (hstatics : scene.statics) (hinit : init.isMissing ∧ uses = [] ∨ IsValue scene.types {} names uses init)
    (hname : names.lookupLocal name = none) (h : scene.Rests ctx start names s) :
    (globalVariable (.varDecl info name declared init)).Does ctx s uses (fun _ s' =>
      (s.needsMemory = true → s'.needsMemory = true) ∧
      scene.Rests ctx start (names.define name ⟨info.type, false, info.pos⟩) s') := by
  refine .bind_nil does_layoutOf ?_
  rintro l _ ⟨hl, rfl⟩
  rename_i s
  rw [(h.follows s.pool).types] at hl
  -- what follows once the initial value is lowered
  have hrest (value : Node) {s₁ : LowerState}
      (hformed : value.isAbsent = false → value.Formed scene ctx.around)
      (htakes : s.Takes scene s₁ value.demand) (hstatic : s₁.static = s.static)
      (hadvances : s.Advances True s₁) :
      Lower.Does (do
        let state ← get
        let placed := state.static.declare info.pos l value
        set { state with static := placed.1 }
        Lower.bind info.pos name (.variable placed.2)) ctx s₁ [] (fun _ s' =>
          (s.needsMemory = true → s'.needsMemory = true) ∧
          scene.Rests ctx start (names.define name ⟨info.type, false, info.pos⟩) s') := by
    refine .get (.bind_nil (P := fun _ s' => s' = _) (.set rfl rfl) ?_)
    rintro _ _ rfl
    have hfresh : s₁.names.lookupLocal name = none := by
      rw [htakes.names]
      exact (h.follows s.pool).unbound name hname
    have hidle := h.idle.advance hadvances htakes.names
    refine .mono (does_bind hfresh) ?_
    rintro _ _ rfl
    exact ⟨htakes.memory, h.declare hstatics hidle hfresh hl hformed htakes hstatic info.pos⟩
  obtain ⟨hmissing, rfl⟩ | hinit := hinit
  · refine .ite (fun _ => ?_) (fun hpresent => absurd hmissing hpresent)
    have hnone : s.Takes scene s Node.absent.demand := .none s
    refine .bind_nil (P := fun value s' => value = .absent ∧ s' = s) (.pure ⟨rfl, rfl⟩) ?_
    rintro _ s' ⟨rfl, hs⟩
    rw [hs]
    exact hrest .absent (by rintro ⟨⟩) hnone rfl h.idle.disciplined.advances
  · refine .ite (fun hmissing => ?_) (fun _ => ?_)
    · rw [hinit.isMissing_eq] at hmissing
      cases hmissing
    · refine (does_initialValue hctx hinit h).bind_last ?_
      rintro value s₁ ⟨⟨hformed, htakes⟩, hstatic, hadvances⟩
      exact hrest value (fun _ => hformed) htakes hstatic hadvances

/-- The declaration of a variable with types fails for allowed reasons only. -/
theorem allowed_globalVariable (htree : tree.Typed) (hidle : s.Idle)
    (hrun : globalVariable tree ctx s = (.error failure, s')) : failure.Allowed True := by
  cases tree with
  | varDecl info name declared init =>
    obtain herror | ⟨l, s₁, hl, hrest⟩ := Steps.bind_eq_error hrun
    · exact (Lower.calm_layoutOf (fun _ : True => htree.isAbsent)).error herror
    obtain ⟨-, hsame⟩ := Lower.layoutOf_eq_ok hl
    rw [hsame] at hrest
    dsimp only at hrest
    split at hrest
    · change Lower.bind info.pos name (.variable (s.static.declare info.pos l .absent).2) ctx _ = _ at hrest
      exact Lower.allowed_bind hrest
    next hpresent =>
      have hinit := htree.optional init (.head _) (by simpa using hpresent)
      have hcomposed := init.composed_initial (fun _ : True => hinit)
      obtain herror | ⟨value, s₂, -, hrest⟩ := Steps.bind_eq_error hrest
      · exact (hcomposed.orderly ctx hidle.disciplined).error failure s' herror
      · change Lower.bind info.pos name (.variable (s₂.static.declare info.pos l value).2) ctx _ = _ at hrest
        exact Lower.allowed_bind hrest
  | _ => cases hrun

/-- The variables of a module are declared one after the other. -/
theorem does_globalVariables (hctx : ctx.Outermost) (htrees : ∀ tree ∈ decls, tree.Typed)
    (hstatics : ∀ tree ∈ decls, tree.declared?.isSome → scene.statics)
    (hdecls : AreGlobals scene.types names uses decls names')
    (h : scene.Rests ctx start names st.lower ∧ scene.Assembles ctx.settings st) :
    (decls.forM (fun decl => lift (globalVariable decl))).Does ctx st uses (fun _ st' =>
      scene.Rests ctx start names' st'.lower ∧ scene.Assembles ctx.settings st') := by
  have hstep {info : TreeInfo} {name : String} {declared : Ty} {init : Tree}
      {names : Chain TypedName} {uses : List Resolution} {st : ModuleState}
      (htree : (Tree.varDecl info name declared init).Typed) (hvariable : scene.statics)
      (hinit : init.isMissing ∧ uses = [] ∨ IsValue scene.types {} names uses init)
      (hname : names.lookupLocal name = none)
      (h : scene.Rests ctx start names st.lower ∧ scene.Assembles ctx.settings st) :
      (lift (globalVariable (.varDecl info name declared init))).Does ctx st uses (fun _ st' =>
        scene.Rests ctx start (names.define name ⟨info.type, false, info.pos⟩) st'.lower ∧
        scene.Assembles ctx.settings st') := by
    refine (does_lift (does_globalVariable hctx hvariable hinit hname h.1)
      (allowed_globalVariable htree h.1.idle)).mono ?_
    rintro _ _ ⟨s', ⟨hmemory, hrests⟩, rfl⟩
    exact ⟨hrests, h.2.of_lower hmemory⟩
  induction hdecls generalizing st with
  | nil => exact .pure h
  | declare hname _ ih =>
    rw [List.forall_mem_cons] at hstatics htrees
    exact (hstep htrees.1 (hstatics.1 rfl) (.inl ⟨rfl, rfl⟩) hname h).bind_nil
      (fun _ _ h => ih htrees.2 hstatics.2 h)
  | declareAs hinit _ hname _ ih =>
    rw [List.forall_mem_cons] at hstatics htrees
    exact (hstep htrees.1 (hstatics.1 rfl) (.inr hinit) hname h).bind (fun _ _ h => ih htrees.2 hstatics.2 h)
  | @skip _ _ _ tree _ hnone _ ih =>
    rw [List.forall_mem_cons] at hstatics htrees
    have hskip : (lift (globalVariable tree)).Does ctx st [] (fun _ st' => st' = st) := by
      cases tree with
      | varDecl => cases hnone
      | _ => exact .pure rfl
    refine hskip.bind_nil ?_
    rintro _ _ rfl
    exact ih htrees.2 hstatics.2 h

/-- After the declarations, the functions of the module are those that bodies may call. -/
theorem Introduced.rests (h : Introduced start names st) (hinits : start.static.inits = [])
    (haddress : start.static.address.isFaithful) :
    Scene.Rests ⟨start.table, st.module.signature?, statics⟩ ctx start names st.lower := by
  obtain ⟨chain, hlower⟩ := h.lower
  have hstatic : st.lower.static = start.static := by rw [hlower]
  refine ⟨fun pool => ⟨?_, ?_, h.unbound⟩, ?_, hstatic ▸ haddress, h.idle⟩
  · dsimp only
    rw [hlower]
  · intro name value hvalue
    obtain ⟨f, hfound, hdeclared, hfunction, hcalls⟩ := h.found name value hvalue
    exact ⟨.function f, hfound, hdeclared, hfunction, { hcalls with }⟩
  · rw [hstatic, hinits]
    refine ⟨.settle (.none start) ?_, (by rintro _ ⟨⟩), (by rintro _ ⟨⟩)⟩
    rw [hlower]
    exact ⟨rfl, .refl _, rfl, rfl⟩

theorem Introduced.assembles (h : Introduced start names st) :
    Scene.Assembles ⟨start.table, st.module.signature?, statics⟩ ctx.settings st where
  functions := fun _ _ => id
  bodies := by
    intro f hf body hbody
    have hnone := h.quiet.bodies f hf (by rw [hbody]; rfl)
    cases hnone
  noted := by
    refine ModuleState.noted_of_none h.unnoted (fun f hf => Option.not_isSome_iff_eq_none.mp (fun hbody => ?_))
    cases h.quiet.bodies f hf hbody
  linked := by
    have hexports : st.module.exports = [] := h.storage.exports
    refine ⟨h.known, ?_, ?_, ?_⟩
    · simp [hexports]
    · simp [hexports]
    · simp [h.unstarted]

end Build

end TreeWasm
