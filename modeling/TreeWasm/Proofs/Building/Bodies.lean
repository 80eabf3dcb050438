import TreeWasm.Proofs.Building.Supplies
import TreeWasm.Proofs.Lowering.Marks
import TreeWasm.Proofs.Needs.Emitted

/-! # Emitting bodies

The body of a function is emitted once, while the module still grows. `Body.Carries` says where the
body comes from: a node with the shape of code, all of whose needs are met by the module and by the
slots of the function. What is emitted for a counted node is such a body, and emission fails for an
ordinary reason only.
-/

namespace TreeWasm

open Wasm

variable {failure : Failure} {m m' : Module} {memory memory' : Prop} {need : Need}

theorem Failure.isOrdinary_of_misuse (h : failure.Misuse) : failure.isOrdinary := by
  unfold Misuse isMisuse at h
  rw [isOrdinary, isScoping, isOfSlots, isUntyped]
  split at h
  next hfault => rw [hfault]; rfl
  · cases h
  next defect hdefect hfault =>
    rw [hfault]
    cases defect with
    | labelOutside l => exact absurd rfl (hdefect l)
    | _ => rfl
  · cases h

/-- What is needed is there: in the module, or among the slots of a function. -/
def Need.Met (m : Module) (memory : Prop) (slots : List ValType) : Need → Prop
  | .memory => memory
  | .slots l held => l.leaves.isOk ∧ held.map (slots[·]?) = l.slots.map some
  | .function index => (m.signature? index).isSome

theorem Need.Met.mono {slots : List ValType} (h : need.Met m memory slots) (hgrows : m.Grows m')
    (hmemory : memory → memory') : need.Met m' memory' slots := by
  cases need with
  | memory => exact hmemory h
  | slots l held => exact h
  | function index =>
    obtain ⟨type, htype⟩ := Option.isSome_iff_exists.mp h
    exact Option.isSome_of_eq_some (hgrows.signature? htype)

/-- The body is the code of a node whose calls fit the functions of the module and whose needs are met.
The signatures and slots that were taken for the code are those of the module and of the function. -/
structure Wasm.Body.Carries (m : Module) (memory : Prop) (ft : FuncType) (body : Body)
    (n : Node) : Prop where
  emitted : ∃ ctx st code st', n.load ctx st = (.ok code, st') ∧ ctx.enclosing = [] ∧
    body.code = Instr.encode code ∧
    Tables.Has ⟨m.types, fun slot => (ft.params ++ body.locals)[slot]?⟩ st'
  shaped : n.Shaped m.signature?
  met : ∀ need ∈ n.needs, need.Met m memory (ft.params ++ body.locals)

theorem Wasm.Body.Carries.mono {ft : FuncType} {body : Body} {n : Node} (h : body.Carries m memory ft n)
    (hgrows : m.Grows m') (hmemory : memory → memory') :
    body.Carries m' memory' ft n where
  emitted := by
    obtain ⟨ctx, st, code, st', hload, houter, hcode, htypes, hslots⟩ := h.emitted
    exact ⟨ctx, st, code, st', hload, houter, hcode, htypes.trans hgrows.types, hslots⟩
  shaped := h.shaped.mono (fun _ _ => hgrows.signature?)
  met := fun need hneed => (h.met need hneed).mono hgrows hmemory

/-- The module so far has the functions of the scene, and its bodies, numbers and notes are right. -/
structure Scene.Assembles (scene : Scene) (settings : Settings) (st : ModuleState) : Prop where
  functions : ∀ func type, scene.functions func = some type → st.module.signature? func = some type
  bodies : st.module.Bodies (fun ft body =>
    ∃ n, body.Carries st.module (st.lower.needsMemory = true ∨ scene.statics) ft n)
  linked : st.module.Linked
  noted : st.Noted (settings.features .sourceMap)

namespace Scene.Assembles

variable {scene : Scene} {settings : Settings} {st st' : ModuleState}

/-- What lowering does besides does not matter, as long as memory that is needed stays so. -/
theorem of_lower (h : scene.Assembles settings st) {lower : LowerState}
    (hmemory : st.lower.needsMemory = true → lower.needsMemory = true) :
    scene.Assembles settings { st with lower := lower } where
  functions := h.functions
  bodies := h.bodies.of_quiet ⟨.refl _, fun _ hf _ => hf⟩
    (fun _ _ ⟨n, hn⟩ => ⟨n, hn.mono (.refl _) (Or.imp_left hmemory)⟩)
  linked := h.linked
  noted := h.noted

theorem of_quiet (h : scene.Assembles settings st) (hlinked : m.Linked) (hquiet : st.module.Quiet m)
    (hnoted : ModuleState.Noted (settings.features .sourceMap) { st with module := m }) :
    scene.Assembles settings { st with module := m } where
  functions := fun func type hfunc => hquiet.toGrows.signature? (h.functions func type hfunc)
  bodies := h.bodies.of_quiet hquiet (fun _ _ ⟨n, hn⟩ => ⟨n, hn.mono hquiet.toGrows id⟩)
  linked := hlinked
  noted := hnoted

end Scene.Assembles

namespace Build

variable {scene : Scene} {ctx : LowerContext} {st : ModuleState} {pos : Position} {index : Nat}
  {ft : FuncType} {n : Node}

/-- A step of building a module that looks up the given names. -/
abbrev Does {α : Type} (x : Build α) (ctx : LowerContext) (st : ModuleState)
    (uses : List Resolution) (post : α → ModuleState → Prop) : Prop :=
  Meets (fun failure => failure.isOrdinary) (fun st : ModuleState => st.lower.resolved) x ctx st uses post

theorem does_ofModule {α : Type} {result : Except ModuleFault α} :
    (ofModule pos result).Does ctx st [] (fun a st' => result = .ok a ∧ st' = st) := by
  cases result with
  | ok a => exact .pure ⟨rfl, rfl⟩
  | error fault => exact .throw rfl

/-- What lowering provides is there among the slots of the function. -/
theorem met_of_provides {scratch : SlotPool} {settings : Settings} (h : scene.Assembles settings st)
    (hneed : st.lower.Provides scene need) (hpool : st.lower.pool.Begins ft.params)
    (hscratch : st.lower.pool.scratch.Extends scratch) :
    need.Met st.module (st.lower.needsMemory = true ∨ scene.statics)
      (ft.params ++ (st.lower.pool.declared ++ scratch.declared)) := by
  cases need with
  | memory => exact hneed
  | function index =>
    obtain ⟨type, htype⟩ := Option.isSome_iff_exists.mp hneed
    exact Option.isSome_of_eq_some (h.functions index type htype)
  | slots l held =>
    exact ⟨hneed.1, map_eq_map_some hneed.2 (fun slot kind hkind => hpool.getElem?_of_pool hscratch hkind)⟩

/-- A counted node whose needs are provided becomes the body of a function. -/
theorem does_emitFunction (hcounted : n.Counted st.lower.labels) (hshaped : n.Shaped scene.functions)
    (hprovided : ∀ need ∈ n.needs, st.lower.Provides scene need)
    (hpool : st.lower.pool.Begins ft.params) (hsignature : st.module.signature? index = some ft)
    (h : scene.Assembles ctx.settings st) :
    (emitFunction pos index n).Does ctx st [] (fun _ st' => scene.Assembles ctx.settings st' ∧
      st'.lower = st.lower ∧ st.module.Enlarges st'.module) where
  ok := by
    intro a st' hrun
    obtain ⟨code, emitted, hload, hdefine, hlower, hbodies⟩ := emitFunction_eq_ok hrun
    have hinterns := Node.interns_of_load hload
    have hscratch := ((n.ensures_load _) _ _ _ hload).1.scratch
    have hinterned := Module.enlarges_of_interns hinterns
    have hdefined := Module.enlarges_define hdefine
    have henlarges := hinterned.trans hdefined
    have hquiet : st.module.Quiet emitted.module := .of_functions hinterned.toGrows (by rw [hinterns.module])
    have hcarries : Body.Carries st'.module (st.lower.needsMemory = true ∨ scene.statics) ft
        ⟨st.lower.pool.declared ++ emitted.scratch.declared, Instr.encode code⟩ n := by
      refine ⟨⟨_, _, code, emitted, hload, rfl, rfl, hdefined.types, ?_⟩, ?_, ?_⟩
      · exact fun slot kind hkind => hpool.getElem?_of_scratch hscratch hkind
      · exact hshaped.mono (fun func type hfunc =>
          henlarges.toGrows.signature? (h.functions func type hfunc))
      · exact fun need hneed =>
          (met_of_provides h (hprovided need hneed) hpool hscratch).mono henlarges.toGrows id
    rw [hlower]
    refine ⟨rfl, ⟨?_, ?_, ?_, ?_⟩, rfl, henlarges⟩
    · exact fun func type hfunc => henlarges.toGrows.signature? (h.functions func type hfunc)
    · rw [hlower]
      refine Module.bodies_define hdefine (h.bodies.of_quiet hquiet ?_)
        (hinterned.toGrows.signature? hsignature) ⟨n, hcarries⟩
      exact fun _ _ ⟨m, hm⟩ => ⟨m, hm.mono henlarges.toGrows id⟩
    · refine h.linked.of_enlarges henlarges (fun signature hsignature => ?_)
      rw [Module.indices_define hdefine, hinterns.module] at hsignature
      exact Nat.lt_of_lt_of_le (h.linked.known signature hsignature) henlarges.types.length_le
    · have hnoted : ModuleState.Noted (ctx.settings.features .sourceMap)
          { st with module := emitted.module } := by
        rw [hinterns.module]
        exact h.noted
      exact hnoted.define hdefine rfl hbodies
  error := by
    intro failure st' hrun
    have hbalanced := hcounted.load_balanced (ctx.settings.features .signExt) _ _ _
      (.refl ⟨st.module, st.lower.pool.scratch⟩)
    obtain herror | ⟨before, st₁, hget, hrun⟩ := Steps.bind_eq_error hrun
    · cases herror
    cases hget
    obtain herror | ⟨settings, st₂, hread, hrun⟩ := Steps.bind_eq_error hrun
    · cases herror
    cases hread
    simp only [ReaderT.run, ExceptT.run, StateT.run] at hrun
    unfold Steps.Runs at hbalanced
    split at hbalanced
    next code emitted hload =>
      rw [hload] at hrun
      dsimp only at hrun
      have hlive : emitted.scratch.liveCount = 0 := hbalanced.scratch.length_eq
      rw [if_neg (not_not_intro hlive)] at hrun
      obtain herror | ⟨m, st₃, hdefine, hrun⟩ := Steps.bind_eq_error hrun
      · exact does_ofModule.error failure st' herror
      · cases hrun
    next failure' emitted hload =>
      rw [hload] at hrun
      cases hrun
      exact ⟨Failure.isOrdinary_of_misuse hbalanced, List.suffix_refl _⟩

end Build

end TreeWasm
