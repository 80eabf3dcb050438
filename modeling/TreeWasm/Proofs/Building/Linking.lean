import TreeWasm.Proofs.Building.Jumps
import TreeWasm.Proofs.Storage.Disjoint

/-! # What the code of a module refers to

Numbers are given out while a module still grows: those of signatures, functions and globals, and those
of slots. In a module that comes out of a checked program each number stands for what it stood for when
it was written: a call names a function that takes just the slots of the arguments, a local is a slot of
the value that is kept there, and exports and the start function name what is there.

Memory is there as well when the code accesses it, with one exception: variables that take no room are
no reason to declare memory, even if they are accessed.
-/

namespace TreeWasm

open Wasm

namespace Node

/-- The node is another one or stands somewhere inside it. -/
inductive Inside : Node → Node → Prop
  | self {n} : Inside n n
  | part {c d n} : Inside c d → d ∈ n.children → Inside c n

variable {n c : Node}

/-- What a node needs is needed by itself or by a node inside it. -/
theorem exists_inside {need : Need} (h : need ∈ n.needs) : ∃ c : Node, c.Inside n ∧ need ∈ c.ownNeeds := by
  induction n using childInduction with
  | absent => cases h
  | step n _ ih =>
    rw [needs_eq, List.mem_append, List.mem_flatMap] at h
    obtain hown | ⟨d, hd, hneed⟩ := h
    · exact ⟨n, .self, hown⟩
    · obtain ⟨c, hc, hown⟩ := ih d hd hneed
      exact ⟨c, .part hc hd, hown⟩

theorem Shaped.inside {functions : Nat → Option FuncType} (h : n.Shaped functions)
    (hc : c.Inside n) : c.Shaped functions := by
  induction hc with
  | self => exact h
  | part _ hd ih => exact ih (h.child hd)

end Node

/-- The slots are declared with the types in which a value of the layout is kept. -/
def Layout.KeptIn (slots : List ValType) (held : List Nat) (l : Layout) : Prop :=
  ∃ kinds, l.flatten = .ok kinds ∧ held.map (slots[·]?) = kinds.map some

namespace Wasm.Instr

/-- What an instruction of the code of a node refers to is there. The last argument is the pool of the
slots that emission took for a while. -/
def Refers (m : Module) (slots : List ValType) (n : Node) (scratch : SlotPool) : Instr → Prop
  | call func => ∃ info name args kinds type, (Node.call info func name args).Inside n ∧
      m.signature? func = some type ∧
      List.Forall₂ (fun arg own => arg.layout.flatten = .ok own) args kinds ∧
      type.params = kinds.flatten
  | localGet slot | localSet slot | localTee slot => slot < slots.length ∧
      ∃ l held, slot ∈ held ∧ l.KeptIn slots held ∧
        ((∃ info, info.layout = l ∧ (Node.locals info held).Inside n) ∨
          ∀ other ∈ held, (scratch.kind? other).isSome)
  | block type _ | loop type _ | ifThen type _ | ifElse type _ _ =>
    ∀ index, type = .signature index → index < m.types.length
  | _ => True

/-- Whether an instruction reads or writes memory. -/
def accessesMemory : Instr → Bool
  | load .. | store .. => true
  | _ => false

end Wasm.Instr

theorem Layout.KeptIn.lt {slots : List ValType} {held : List Nat} {l : Layout} {slot : Nat}
    (h : l.KeptIn slots held) (hslot : slot ∈ held) : slot < slots.length := by
  obtain ⟨kinds, -, hheld⟩ := h
  have hmem : slots[slot]? ∈ kinds.map some := hheld ▸ List.mem_map_of_mem hslot
  obtain ⟨kind, -, hkind⟩ := List.mem_map.mp hmem
  exact (List.getElem?_eq_some_iff.mp hkind.symm).1

/-- The body is what emission gave for a node, taking slots of the pool for a while. -/
def Wasm.Body.Emitted (body : Body) (n : Node) (code : List Instr) (scratch : SlotPool) : Prop :=
  ∃ ctx st st', n.load ctx st = (.ok code, st') ∧ st'.scratch = scratch ∧
    body.code = Instr.encode code

namespace Wasm.Body.Carries

variable {m : Module} {memory : Prop} {ft : FuncType} {body : Body} {n : Node} {st' : EmitState}

section

variable (h : body.Carries m memory ft n)
include h

/-- A call was built for a node with arguments that the function takes. -/
theorem call_refers {func : Nat} (hneed : .function func ∈ n.needs) {slots : List ValType}
    {scratch : SlotPool} : (Instr.call func).Refers m slots n scratch := by
  obtain ⟨c, hinside, hown⟩ := Node.exists_inside hneed
  cases c with
  | call info func' name args =>
    obtain rfl : func = func' := by simpa [Node.ownNeeds] using hown
    obtain ⟨hargs, type, htype, hparams⟩ := (h.shaped.inside hinside).isShaped
    refine ⟨info, name, args, args.map (fun arg => arg.layout.slots), type, hinside, htype, ?_, ?_⟩
    · rw [List.forall₂_map_right_iff, List.forall₂_same]
      exact fun arg harg => Layout.flatten_eq (hargs arg harg)
    · rw [hparams, List.flatMap_def]
  | _ => simp [Node.ownNeeds] at hown

/-- A slot was asked for by a node, or taken for a while by emission. -/
theorem slot_refers {slot : Nat}
    (htables : Tables.Has ⟨m.types, fun slot => (ft.params ++ body.locals)[slot]?⟩ st')
    (hbacked : (Instr.localGet slot).Backed ⟨st'.module.types, st'.scratch.kind?⟩ n.needs) :
    (Instr.localGet slot).Refers m (ft.params ++ body.locals) n st'.scratch := by
  obtain ⟨l, held, hslot, hok, hkinds⟩ | ⟨l, held, hneed, hslot⟩ := hbacked
  · have hkept : l.KeptIn (ft.params ++ body.locals) held :=
      ⟨l.slots, Layout.flatten_eq hok, map_eq_map_some hkinds htables.slots⟩
    refine ⟨hkept.lt hslot, l, held, hslot, hkept, .inr (fun other hother => ?_)⟩
    have hmem : st'.scratch.kind? other ∈ l.slots.map some := hkinds ▸ List.mem_map_of_mem hother
    obtain ⟨kind, -, hkind⟩ := List.mem_map.mp hmem
    exact Option.isSome_of_eq_some hkind.symm
  · obtain ⟨hok, hkinds⟩ := h.met _ hneed
    have hkept : l.KeptIn (ft.params ++ body.locals) held := ⟨l.slots, Layout.flatten_eq hok, hkinds⟩
    refine ⟨hkept.lt hslot, l, held, hslot, hkept, .inl ?_⟩
    obtain ⟨c, hinside, hown⟩ := Node.exists_inside hneed
    cases c with
    | locals info slots =>
      obtain ⟨rfl, rfl⟩ : l = info.layout ∧ held = slots := by simpa [Node.ownNeeds] using hown
      exact ⟨info, rfl, hinside⟩
    | _ => simp [Node.ownNeeds] at hown

/-- The code of a body refers to what is there, and accesses memory only where this is needed. -/
theorem refers :
    ∃ code scratch, body.Emitted n code scratch ∧
      ∀ i ∈ Instr.innerAll code, i.Refers m (ft.params ++ body.locals) n scratch ∧
        (i.accessesMemory → memory) := by
  obtain ⟨ctx, st, code, st', hload, -, hcode, htables⟩ := h.emitted
  refine ⟨code, st'.scratch, ⟨ctx, st, st', hload, rfl, hcode⟩, fun i hi => ?_⟩
  -- Under the tables of emission itself, a slot that no node asked for is one taken for a while.
  have hown : Tables.Has ⟨st'.module.types, st'.scratch.kind?⟩ st' :=
    ⟨List.prefix_refl _, fun _ _ hkind => hkind⟩
  obtain ⟨_, _, htraces, -, -⟩ := ((n.ensures_load ctx) st code st' hload).2 _ hown
  have hbacked := htraces.backed i hi
  cases i with
  | load | store => exact ⟨trivial, fun _ => h.met _ hbacked⟩
  | call func => exact ⟨h.call_refers hbacked, nofun⟩
  | localGet slot | localSet slot | localTee slot => exact ⟨h.slot_refers htables hbacked, nofun⟩
  | block type | loop type | ifThen type | ifElse type =>
    refine ⟨fun index htype => ?_, nofun⟩
    subst htype
    obtain ⟨ft, hft⟩ := Option.isSome_iff_exists.mp hbacked
    exact Nat.lt_of_lt_of_le (List.getElem?_eq_some_iff.mp hft).1 htables.types.length_le
  | _ => exact ⟨trivial, nofun⟩

end

end Wasm.Body.Carries

/-- Every number in the module stands for what is there: in addition to the numbers of signatures,
exports and the start function, those in the code of its functions. -/
structure Wasm.Module.Consistent (m : Module) : Prop extends Linked m where
  bodies : ∀ f ∈ m.functions, ∃ ft body n code scratch, m.types[f.signature]? = some ft ∧
    f.body = some body ∧ body.Emitted n code scratch ∧
    ∀ i ∈ Instr.innerAll code, i.Refers m (ft.params ++ body.locals) n scratch

namespace Program

variable {settings : Settings} {text : String} {program : Program} {compiled : Compiled}

/-- A program is compiled only if every function got a body. -/
theorem exists_body_of_compile (h : (program.compile settings).1 = .ok compiled) {f : Function}
    (hf : f ∈ compiled.module.functions) : ∃ body, f.body = some body := by
  obtain ⟨state, encoded, -, hencoded, rfl⟩ := encoded_of_compile h
  obtain ⟨bodies, hbodies, -⟩ := Module.encode_eq_ok hencoded
  have hmem : f.body ∈ bodies.map some := hbodies ▸ List.mem_map_of_mem hf
  obtain ⟨body, -, hbody⟩ := List.mem_map.mp hmem
  exact ⟨body, hbody.symm⟩

theorem assembled_of_compile (haccepted : accepted? text = some program)
    (hcompiled : (program.compile settings).1 = .ok compiled) :
    ∃ state info imports decls exports functions, program.lowered settings = some state ∧
      compiled.module = state.module ∧ program.root = .module info imports decls exports ∧
      (Build.sceneOf program.types functions decls).Assembles settings state ∧
      (state.module.memory = none → state.lower.static.isUsed = false ∧ state.lower.needsMemory = false) := by
  obtain ⟨source, hread, hcheck⟩ := accepted?_eq_some haccepted
  obtain ⟨uses, -, hmodule⟩ := isModule_of_check hread hcheck
  obtain ⟨state, hlowered, hsame⟩ := lowered_of_compile hcompiled
  obtain ⟨-, info, imports, decls, exports, hroot, ⟨functions, hassembles⟩, hmemory⟩ :=
    (does_lower settings hmodule).ok _ _ (lower_of_lowered hlowered)
  exact ⟨state, info, imports, decls, exports, functions, hlowered, hsame, hroot, hassembles, hmemory⟩

/-- A function of the host, one that calls it and itself, and a variable that gets its value at the
start. -/
def recursion : String :=
  "imports: [\x7bfield: g, type: fun(i64)\x7d]
exports: [f, v]
decls:
- \x7bvar: v, type: i32, init: \x7bcall: f, args: [3]\x7d\x7d
- fun: f
  params: \x7bn: i32\x7d
  result: i32
  body:
  - \x7bvar: w, type: i64, init: 7\x7d
  - \x7bcall: g, args: [w]\x7d
  - \x7breturn: \x7bcall: f, args: [n]\x7d\x7d
"

set_option maxRecDepth 4000 in
theorem exists_recursion :
    ∃ program compiled vars, accepted? recursion = some program ∧
      (program.compile .initial).1 = .ok compiled ∧ program.staticVariables = .ok vars ∧
      Cell.finish StaticMemory.base vars = 12 ∧ compiled.module.types.length = 3 ∧
      compiled.module.functions.length = 2 ∧ compiled.module.start = some 2 ∧
      compiled.module.exports.map (fun e => (e.name, e.index)) = [("f", 1), ("v", 0)] := by
  have hfacts : (accepted? recursion).any (fun program =>
      (program.compile .initial).1.toOption.any (fun compiled =>
        program.staticVariables.toOption.any (fun vars =>
          Cell.finish StaticMemory.base vars = 12 ∧ compiled.module.types.length = 3 ∧
          compiled.module.functions.length = 2 ∧ compiled.module.start = some 2 ∧
          compiled.module.exports.map (fun e => (e.name, e.index)) = [("f", 1), ("v", 0)]))) =
      true := by
    rw [accepted?_of_toList recursion String.toList_ofList]
    decide +kernel
  obtain ⟨program, haccepted, hfacts⟩ := (Option.any_eq_true _ _).mp hfacts
  obtain ⟨compiled, hcompiled, hfacts⟩ := (Option.any_eq_true _ _).mp hfacts
  obtain ⟨vars, hvars, hfacts⟩ := (Option.any_eq_true _ _).mp hfacts
  exact ⟨program, compiled, vars, haccepted, eq_ok_of_toOption hcompiled, eq_ok_of_toOption hvars,
    of_decide_eq_true hfacts⟩

theorem variablesOf_ne_nil {layout : Ty → Except LayoutDefect Layout} {decls : List Tree}
    {vars : List Variable} (h : variablesOf layout decls = .ok vars) {tree : Tree}
    (htree : tree ∈ decls) (hdeclared : tree.declared?.isSome) : vars ≠ [] := by
  induction decls generalizing vars with
  | nil => cases htree
  | cons decl rest ih =>
    cases decl with
    | varDecl info name declared init =>
      obtain ⟨l, -, h⟩ := Except.exists_of_bind h
      obtain ⟨more, -, h⟩ := Except.exists_of_bind h
      cases h
      exact List.cons_ne_nil _ _
    | _ =>
      obtain rfl | htree := List.mem_cons.mp htree
      · cases hdeclared
      · exact ih h htree

/-- The module of an accepted program has memory if it has data, and if the code of a function accesses
memory. There is one exception to the second: where the room that is counted for the variables comes to
nothing, they are no reason for memory, though they may be accessed. -/
theorem compile_has_memory (haccepted : accepted? text = some program)
    (hcompiled : (program.compile settings).1 = .ok compiled) :
    ∃ vars, program.staticVariables = .ok vars ∧
      (compiled.module.segments ≠ [] → compiled.module.memory ≠ none) ∧
      ∀ f ∈ compiled.module.functions, ∃ body n code scratch, f.body = some body ∧
        body.Emitted n code scratch ∧ ∀ i ∈ Instr.innerAll code, i.accessesMemory →
          compiled.module.memory ≠ none ∨
            vars ≠ [] ∧ Cell.finish StaticMemory.base vars ≤ StaticMemory.base := by
  obtain ⟨state, info, imports, decls, exports, functions, hlowered, hsame, hroot, hassembles, hmemory⟩ :=
    assembled_of_compile haccepted hcompiled
  obtain ⟨vars, hvars, -, harranged⟩ := arranged_of_lowered hlowered
  refine ⟨vars, hvars, fun hsegments hnone => ?_, fun f hf => ?_⟩
  · obtain ⟨-, -, hempty⟩ | ⟨limit, hsome, -⟩ := harranged.memory
    · exact hsegments (hsame ▸ hempty)
    · rw [hsame, hsome] at hnone
      cases hnone
  · obtain ⟨body, hbody⟩ := exists_body_of_compile hcompiled hf
    rw [hsame] at hf ⊢
    obtain ⟨ft, hft, n, hcarries⟩ := hassembles.bodies f hf body hbody
    obtain ⟨code, scratch, hemitted, hrefers⟩ := hcarries.refers
    refine ⟨body, n, code, scratch, hbody, hemitted, fun i hi haccesses => ?_⟩
    by_cases hnone : state.module.memory = none
    · obtain ⟨hunused, hneeds⟩ := hmemory hnone
      obtain hneeded | ⟨tree, htree, hdeclared⟩ := (hrefers i hi).2 haccesses
      · rw [hneeds] at hneeded
        cases hneeded
      · rw [staticVariables, hroot] at hvars
        have hnext : ¬ state.lower.static.next > StaticMemory.base := by
          simpa [StaticMemory.isUsed] using hunused
        rw [harranged.stores.next] at hnext
        exact .inr ⟨variablesOf_ne_nil hvars htree hdeclared, Int64.not_lt.mp hnext⟩
    · exact .inl hnone

theorem compile_has_memory_recursion :
    ∃ program compiled vars, accepted? recursion = some program ∧
      (program.compile .initial).1 = .ok compiled ∧ program.staticVariables = .ok vars ∧
      Cell.finish StaticMemory.base vars = 12 ∧ ∀ f ∈ compiled.module.functions,
        ∃ body n code scratch, f.body = some body ∧ body.Emitted n code scratch ∧
          ∀ i ∈ Instr.innerAll code, i.accessesMemory → compiled.module.memory ≠ none := by
  obtain ⟨program, compiled, vars, haccepted, hcompiled, hvars, hfinish, -⟩ := exists_recursion
  obtain ⟨vars', hvars', -, hbodies⟩ := compile_has_memory haccepted hcompiled
  rw [hvars] at hvars'
  cases hvars'
  refine ⟨program, compiled, vars, haccepted, hcompiled, hvars, hfinish, fun f hf => ?_⟩
  obtain ⟨body, n, code, scratch, hbody, hemitted, haccess⟩ := hbodies f hf
  refine ⟨body, n, code, scratch, hbody, hemitted, fun i hi haccesses => ?_⟩
  refine (haccess i hi haccesses).resolve_right ?_
  rw [hfinish]
  exact fun hroom => absurd hroom.2 (by decide)

/-- Whether a program compiles, and the code of the function at an index has a property. -/
def emits (text : String) (index : Nat) (p : Wasm.Module → Function → Code → Bool) : Bool :=
  (accepted? text).any (fun program =>
    (program.compile .initial).1.toOption.any (fun compiled =>
      (program.built? .initial index).any (fun (labels, built) =>
        (Lower.simplifyBody built (program.context .initial)
          { program.start.lower with labels := labels }).1.toOption.any (fun n =>
          (n.load ⟨labels, true, []⟩ ⟨.empty, .ofParams []⟩).1.toOption.any (fun code =>
            compiled.module.functions.any (fun f => f.body.any (fun body =>
              body.code = Instr.encode code ∧ p compiled.module f code)))))))

theorem exists_of_emits {text : String} {index : Nat} {p : Wasm.Module → Function → Code → Bool}
    (h : emits text index p = true) :
    ∃ program compiled f body n code scratch, accepted? text = some program ∧
      (program.compile .initial).1 = .ok compiled ∧ f ∈ compiled.module.functions ∧
      f.body = some body ∧ body.Emitted n code scratch ∧ p compiled.module f code := by
  obtain ⟨program, haccepted, h⟩ := (Option.any_eq_true _ _).mp h
  obtain ⟨compiled, hcompiled, h⟩ := (Option.any_eq_true _ _).mp h
  obtain ⟨⟨labels, built⟩, -, h⟩ := (Option.any_eq_true _ _).mp h
  obtain ⟨n, -, h⟩ := (Option.any_eq_true _ _).mp h
  obtain ⟨code, hload, h⟩ := (Option.any_eq_true _ _).mp h
  obtain ⟨f, hf, h⟩ := List.any_eq_true.mp h
  obtain ⟨body, hbody, h⟩ := (Option.any_eq_true _ _).mp h
  obtain ⟨hcode, hp⟩ := of_decide_eq_true h
  exact ⟨program, compiled, f, body, n, code, _, haccepted, eq_ok_of_toOption hcompiled, hf, hbody,
    ⟨_, _, _, Prod.ext (eq_ok_of_toOption hload) rfl, rfl, hcode⟩, hp⟩

/-- A variable without room, and a function that reads from it. -/
def hollow : String :=
  "exports: [f]
decls:
  - \x7bvar: a, type: '[0]i32'\x7d
  - fun: f
    result: i32
    body:
      - \x7breturn: \x7bindex: [a, 0]\x7d\x7d
"

set_option maxRecDepth 4000 in
/-- The code of the function reads from memory that the module does not have. -/
theorem compile_lacks_memory_hollow :
    ∃ program compiled f body n code scratch, accepted? hollow = some program ∧
      (program.compile .initial).1 = .ok compiled ∧ f ∈ compiled.module.functions ∧
      f.body = some body ∧ body.Emitted n code scratch ∧
      (∃ i ∈ Instr.innerAll code, i.accessesMemory) ∧ compiled.module.memory = none := by
  have hemits : emits hollow 1 (fun module _ code =>
      (Instr.innerAll code).any Instr.accessesMemory ∧ module.memory = none) := by
    rw [emits, accepted?_of_toList hollow String.toList_ofList]
    decide +kernel
  obtain ⟨program, compiled, f, body, n, code, scratch, haccepted, hcompiled, hf, hbody, hemitted,
    hfacts⟩ := exists_of_emits hemits
  obtain ⟨haccesses, hnone⟩ := of_decide_eq_true hfacts
  exact ⟨program, compiled, f, body, n, code, scratch, haccepted, hcompiled, hf, hbody, hemitted,
    List.any_eq_true.mp haccesses, hnone⟩

/-- A function that returns a fractional literal said to be an integer. -/
def mistyped : String :=
  "exports: [f]
decls:
  - fun: f
    result: i64
    body:
      - \x7breturn: \x7bfloat: 1.5, type: i64\x7d\x7d
"

/-- Whether code returns a floating-point constant. -/
def returnsDouble : Code → Bool
  | .mark _ :: rest => returnsDouble rest
  | .constDouble _ :: .ret :: _ => true
  | _ => false

theorem not_allValid_of_returnsDouble {code : Code} {tables : Tables} {site : Site}
    (hresults : site.results = [.i64]) (h : returnsDouble code) (left : List ValType) :
    ¬ Instr.AllValid tables site code [] left := by
  fun_induction returnsDouble code with
  | case1 pos rest ih =>
    rintro ⟨below, given, got, hnil, ⟨-, rfl⟩, hrest⟩
    obtain ⟨rfl, -⟩ := List.append_eq_nil_iff.mp hnil.symm
    exact ih h hrest
  | case2 value rest =>
    rintro ⟨below, given, got, hnil, ⟨-, rfl⟩, lower, given, got, hdouble, hret, -⟩
    obtain ⟨rfl, -⟩ := List.append_eq_nil_iff.mp hnil.symm
    have hmem : ValType.i64 ∈ lower ++ given := List.mem_append_right lower (hret.subset (by simp [hresults]))
    rw [← hdouble] at hmem
    simp at hmem
  | case3 => cases h

set_option maxRecDepth 4000 in
/-- The code of the function leaves a floating-point number where its signature has an integer. -/
theorem compile_invalid_mistyped :
    ∃ program compiled f body n code scratch, accepted? mistyped = some program ∧
      (program.compile .initial).1 = .ok compiled ∧ f ∈ compiled.module.functions ∧
      f.body = some body ∧ body.Emitted n code scratch ∧
      compiled.module.types[f.signature]? = some ⟨[], [.i64]⟩ ∧
      ∀ tables labels functions, ¬ Instr.AllValid tables ⟨labels, [.i64], functions⟩ code [] [.i64] := by
  have hemits : emits mistyped 0 (fun module f code =>
      module.types[f.signature]? = some ⟨[], [.i64]⟩ ∧ returnsDouble code) := by
    rw [emits, accepted?_of_toList mistyped String.toList_ofList]
    decide +kernel
  obtain ⟨program, compiled, f, body, n, code, scratch, haccepted, hcompiled, hf, hbody, hemitted,
    hfacts⟩ := exists_of_emits hemits
  obtain ⟨hsignature, hreturns⟩ := of_decide_eq_true hfacts
  exact ⟨program, compiled, f, body, n, code, scratch, haccepted, hcompiled, hf, hbody, hemitted,
    hsignature, fun tables labels functions => not_allValid_of_returnsDouble rfl hreturns _⟩

end Program

end TreeWasm
