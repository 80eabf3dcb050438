import TreeWasm.Proofs.Binary.Faithful
import TreeWasm.Proofs.Storage.Phases

/-! # Modules grow

While a module is built, signatures and functions are only added to it, imports first. What a body
refers to early is therefore still there in the finished module. Bodies are given to functions one by
one: `Module.Bodies` says something of all bodies that a module has so far. `Module.Linked` is about
the other numbers in a module, those of signatures, exports and the start function.
-/

namespace TreeWasm

open Wasm

namespace Wasm.Module

variable {body : Body} {P : FuncType → Body → Prop} {index : Nat} {module name : String}

/-- The numbers of the signatures of all functions, imports first. -/
def indices (m : Module) : List Nat := m.imports.map Import.signature ++ m.functions.map Function.signature

/-- The signature of a function. -/
def signature? (m : Module) (index : Nat) : Option FuncType :=
  m.indices[index]?.bind (fun signature => m.types[signature]?)

/-- The bodies that a module has so far, with the signatures of their functions. -/
def Bodies (P : FuncType → Body → Prop) (m : Module) : Prop :=
  ∀ f ∈ m.functions, ∀ body, f.body = some body → ∃ ft, m.types[f.signature]? = some ft ∧ P ft body

/-- How many things of a kind a module has that can be exported. -/
def count (m : Module) : ExternKind → Nat
  | .function => m.indices.length
  | .memory => m.memory.toList.length
  | .global => m.globals.length
  | .other _ => 0

/-- Functions have signatures, exports have names of their own and name what is there, and the start
function is one of the module itself that neither takes nor gives anything. -/
structure Linked (m : Module) : Prop where
  known : ∀ signature ∈ m.indices, signature < m.types.length
  distinct : (m.exports.map Export.name).Nodup
  exported : ∀ e ∈ m.exports, e.index < m.count e.kind
  started : ∀ index, m.start = some index → m.imports.length ≤ index ∧ m.signature? index = some ⟨[], []⟩

/-- The second module has the signatures and functions of the first under the same numbers. -/
structure Grows (m m' : Module) : Prop where
  types : m.types <+: m'.types
  indices : m.indices <+: m'.indices

/-- In addition, the second module has no bodies but those of the first. -/
structure Quiet (m m' : Module) : Prop extends Grows m m' where
  bodies : ∀ f ∈ m'.functions, f.body.isSome → f ∈ m.functions

/-- In addition to growing, the second module has the imports, exports, globals, memory, data and start
function of the first. -/
structure Enlarges (m m' : Module) : Prop extends Grows m m', SameStorage m m' where
  imports : m'.imports = m.imports
  start : m'.start = m.start

variable {m m' m'' : Module} {ft : FuncType}

theorem Grows.refl (m : Module) : m.Grows m := ⟨List.prefix_refl _, List.prefix_refl _⟩

theorem Grows.trans (h : m.Grows m') (h' : m'.Grows m'') : m.Grows m'' :=
  ⟨h.types.trans h'.types, h.indices.trans h'.indices⟩

theorem Quiet.of_functions (h : m.Grows m') (hfunctions : m'.functions = m.functions) : m.Quiet m' :=
  ⟨h, fun _ hf _ => hfunctions ▸ hf⟩

theorem Quiet.trans (h : m.Quiet m') (h' : m'.Quiet m'') : m.Quiet m'' :=
  ⟨h.toGrows.trans h'.toGrows, fun f hf hbody => h.bodies f (h'.bodies f hf hbody) hbody⟩

theorem Grows.signature? (h : m.Grows m') (hindex : m.signature? index = some ft) :
    m'.signature? index = some ft := by
  obtain ⟨signature, hsignature, htype⟩ := Option.bind_eq_some_iff.mp hindex
  rw [Module.signature?, getElem?_of_prefix h.indices hsignature]
  exact getElem?_of_prefix h.types htype

theorem Bodies.of_quiet {P' : FuncType → Body → Prop} (h : m.Bodies P) (hquiet : m.Quiet m')
    (himp : ∀ ft body, P ft body → P' ft body) : m'.Bodies P' := by
  intro f hf body hbody
  obtain ⟨ft, hft, hP⟩ := h f (hquiet.bodies f hf (by rw [hbody]; rfl)) body hbody
  exact ⟨ft, getElem?_of_prefix hquiet.types hft, himp ft body hP⟩

theorem Enlarges.trans (h : m.Enlarges m') (h' : m'.Enlarges m'') : m.Enlarges m'' where
  toGrows := h.toGrows.trans h'.toGrows
  memory := h'.memory.trans h.memory
  segments := h'.segments.trans h.segments
  globals := h'.globals.trans h.globals
  exports := h'.exports.trans h.exports
  imports := h'.imports.trans h.imports
  start := h'.start.trans h.start

theorem Linked.of_enlarges (h : m.Linked) (henlarges : m.Enlarges m')
    (hknown : ∀ signature ∈ m'.indices, signature < m'.types.length) : m'.Linked where
  known := hknown
  distinct := henlarges.exports ▸ h.distinct
  exported := by
    intro e he
    rw [henlarges.exports] at he
    refine Nat.lt_of_lt_of_le (h.exported e he) ?_
    unfold count
    rw [henlarges.memory, henlarges.globals]
    split
    · exact henlarges.indices.length_le
    all_goals exact Nat.le_refl _
  started := by
    intro index hindex
    rw [henlarges.start] at hindex
    obtain ⟨hown, hsignature⟩ := h.started index hindex
    exact ⟨henlarges.imports ▸ hown, henlarges.toGrows.signature? hsignature⟩

/-! ## The steps of building a module -/

theorem enlarges_of_interns (h : m.Interns m') : m.Enlarges m' := by
  refine ⟨⟨h.types, ?_⟩, ?_, ?_, ?_⟩
  · rw [h.module]
    exact List.prefix_refl _
  · rw [h.module]
    exact ⟨rfl, rfl, rfl, rfl⟩
  · rw [h.module]
  · rw [h.module]

theorem enlarges_intern (m : Module) (ft : FuncType) : m.Enlarges (m.intern ft).1 :=
  enlarges_of_interns ⟨m.intern_frame ft, (m.intern_spec ft).1⟩

/-- The number of an interned signature is one of a known signature. -/
theorem known_intern (m : Module) (h : ∀ signature ∈ m.indices, signature < m.types.length) :
    ∀ signature ∈ m.indices ++ [(m.intern ft).2], signature < (m.intern ft).1.types.length := by
  obtain ⟨htypes, hnew⟩ := m.intern_spec ft
  intro signature hsignature
  obtain hold | hsignature := List.mem_append.mp hsignature
  · exact Nat.lt_of_lt_of_le (h signature hold) htypes.length_le
  · obtain rfl := List.mem_singleton.mp hsignature
    exact (List.getElem?_eq_some_iff.mp hnew).1

theorem indices_declare (m : Module) (ft : FuncType) :
    (m.declare ft).1.indices = m.indices ++ [(m.intern ft).2] := by
  change (m.intern ft).1.imports.map _ ++ (m.functions ++ _).map _ = _
  rw [m.intern_frame ft, List.map_append, ← List.append_assoc]
  rfl

theorem enlarges_declare (m : Module) (ft : FuncType) : m.Enlarges (m.declare ft).1 :=
  { m.enlarges_intern ft with indices := m.indices_declare ft ▸ List.prefix_append _ _ }

theorem quiet_declare (m : Module) (ft : FuncType) : m.Quiet (m.declare ft).1 := by
  refine ⟨(m.enlarges_declare ft).toGrows, ?_⟩
  intro f hf hbody
  obtain hold | hnew := List.mem_append.mp hf
  · exact hold
  · rw [List.mem_singleton.mp hnew] at hbody
    cases hbody

theorem known_declare (h : ∀ signature ∈ m.indices, signature < m.types.length) :
    ∀ signature ∈ (m.declare ft).1.indices, signature < (m.declare ft).1.types.length := by
  rw [indices_declare]
  exact m.known_intern h

/-- A declared function has the signature it is declared with. -/
theorem signature?_declare (m : Module) (ft : FuncType) :
    (m.declare ft).1.signature? (m.declare ft).2 = some ft := by
  have hlen : (m.declare ft).2 = m.indices.length := by simp [declare, declareWith, indices]
  rw [signature?, indices_declare, hlen, List.getElem?_concat_length]
  exact (m.intern_spec ft).2

section

variable (h : m.addImport module name ft = .ok (m', index))
include h

theorem indices_addImport : m'.indices = m.indices ++ [(m.intern ft).2] ∧ index = m.indices.length := by
  obtain ⟨hnone, rfl, rfl⟩ := addImport_eq_ok h
  have hfunctions : (m.intern ft).1.functions = [] := by rw [m.intern_frame ft, hnone]
  simp [indices, hfunctions, hnone]

theorem quiet_addImport : m.Quiet m' ∧ m'.start = m.start ∧ m'.signature? index = some ft := by
  obtain ⟨hindices, hindex⟩ := indices_addImport h
  obtain ⟨hnone, -, rfl⟩ := addImport_eq_ok h
  have hinterned := m.enlarges_intern ft
  refine ⟨⟨⟨hinterned.types, hindices ▸ List.prefix_append _ _⟩, ?_⟩, hinterned.start, ?_⟩
  · intro f hf _
    rwa [m.intern_frame ft] at hf
  · rw [signature?, hindices, hindex, List.getElem?_concat_length]
    exact (m.intern_spec ft).2

theorem known_addImport (hknown : ∀ signature ∈ m.indices, signature < m.types.length) :
    ∀ signature ∈ m'.indices, signature < m'.types.length := by
  obtain ⟨hindices, -⟩ := indices_addImport h
  obtain ⟨-, -, rfl⟩ := addImport_eq_ok h
  rw [hindices]
  exact m.known_intern hknown

end

section

variable (h : m.define index body = .ok m')
include h

theorem indices_define : m'.indices = m.indices := by
  obtain ⟨f, hf, -, -, rfl⟩ := define_eq_ok h
  obtain ⟨hlt, rfl⟩ := List.getElem?_eq_some_iff.mp hf
  have hset : (m.functions.set (index - m.imports.length)
      ⟨m.functions[index - m.imports.length].signature, some body⟩).map Function.signature =
        (m.functions.set (index - m.imports.length) m.functions[index - m.imports.length]).map
          Function.signature := by
    rw [List.map_set, List.map_set]
  rw [List.set_getElem_self] at hset
  simp only [indices, hset]

theorem enlarges_define : m.Enlarges m' := by
  have hindices := indices_define h
  have hstorage := sameStorage_define h
  obtain ⟨f, -, -, -, rfl⟩ := define_eq_ok h
  exact ⟨⟨List.prefix_refl _, hindices.symm ▸ List.prefix_refl _⟩, hstorage, rfl, rfl⟩

/-- A function gets a body that is right for its signature. -/
theorem bodies_define (hbodies : m.Bodies P) (hsignature : m.signature? index = some ft)
    (hbody : P ft body) : m'.Bodies P := by
  obtain ⟨f, hf, -, hindex, rfl⟩ := define_eq_ok h
  have hfound : m.indices[index]? = some f.signature := by
    rw [indices, List.getElem?_append_right (by simpa using hindex)]
    simp [hf]
  rw [signature?, hfound] at hsignature
  intro g hg other hother
  obtain hg | rfl := List.mem_or_eq_of_mem_set hg
  · exact hbodies g hg other hother
  · cases hother
    exact ⟨ft, hsignature, hbody⟩

end

end Wasm.Module

/-! ## Slots -/

namespace SlotPool

/-- The first slots of a pool are the parameters of a function. -/
structure Begins (pool : SlotPool) (params : List ValType) : Prop where
  first : pool.first = 0
  count : pool.params = params.length
  kinds : params <+: pool.kinds.toList

variable {pool pool' scratch : SlotPool} {params : List ValType} {slot : Nat} {kind : ValType}

theorem begins_ofParams : (ofParams params).Begins params := ⟨rfl, rfl, List.prefix_refl _⟩

section

variable (h : pool.Begins params)
include h

theorem Begins.of_extends (hextends : pool.Extends pool') : pool'.Begins params :=
  ⟨hextends.first.trans h.first, hextends.params.trans h.count, h.kinds.trans hextends.kinds⟩

section

variable (hscratch : pool.scratch.Extends scratch)
include hscratch

/-- The slots of a function: those of the pool, then those for spilled values. -/
theorem Begins.slots_eq :
    params ++ (pool.declared ++ scratch.declared) = pool.kinds.toList ++ scratch.kinds.toList := by
  have hparams : scratch.params = 0 := hscratch.params
  rw [← List.append_assoc, declared, h.count, List.prefix_iff_eq_append.mp h.kinds, declared, hparams,
    List.drop_zero]

theorem Begins.getElem?_of_pool (hkind : pool.kind? slot = some kind) :
    (params ++ (pool.declared ++ scratch.declared))[slot]? = some kind := by
  rw [kind?, h.first, if_neg (Nat.not_lt_zero _), Nat.sub_zero, ← Array.getElem?_toList] at hkind
  rw [h.slots_eq hscratch]
  exact getElem?_of_prefix (List.prefix_append _ _) hkind

theorem Begins.getElem?_of_scratch (hkind : scratch.kind? slot = some kind) :
    (params ++ (pool.declared ++ scratch.declared))[slot]? = some kind := by
  have hfirst : scratch.first = pool.kinds.toList.length := by
    rw [hscratch.first, SlotPool.scratch, h.first, Nat.zero_add, Array.length_toList]
  rw [kind?, hfirst] at hkind
  split at hkind
  · cases hkind
  next hslot =>
    rw [h.slots_eq hscratch, List.getElem?_append_right (Nat.le_of_not_lt hslot), Array.getElem?_toList]
    exact hkind

end

end

end SlotPool

end TreeWasm
