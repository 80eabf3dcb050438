import TreeWasm.Proofs.Building.Supplies

/-! # Where lowering stands

Lowering follows the check of a program: at each point it has the names in sight that the check had,
bound to storage or functions of their types that come from the same declarations, and it knows where
jumps lead whenever the check allowed them. `Scene.Goes` says so of the names of the check and a state.
What a value or a statement is lowered to, from such a point, is `Scene.Brings` and `Scene.Makes`.
-/

namespace TreeWasm

open Wasm

namespace Node

/-- The node has the shape of code, and its branches lead to constructs inside it or to the given
labels. -/
structure Formed (scene : Scene) (around : List Nat) (n : Node) : Prop where
  enclosed : n.Enclosed around
  shaped : n.Shaped scene.functions

/-- The parts of a literal are values of its fields or elements, all the way down. -/
inductive Whole (types : TypeTable) : Node → Prop
  | plain {n} : n.isLiteral = false → Whole types n
  | structLit {info nodes tag union size fields} :
      info.layout = .struct tag union size fields →
      List.Forall₂ (fun n field => n.layout.Similar field.layout) nodes fields →
      (∀ n ∈ nodes, types.Has n.layout) → (∀ n ∈ nodes, Whole types n) →
      Whole types (.structLit info nodes)
  | arrayLit {info nodes tag elem count size} :
      info.layout = .array tag elem count size →
      (∀ bound, count = some bound → bound.toInt = nodes.length) →
      (∀ n ∈ nodes, n.layout.Similar elem) → (∀ n ∈ nodes, types.Has n.layout) →
      (∀ n ∈ nodes, Whole types n) →
      Whole types (.arrayLit info nodes)

variable {scene : Scene} {types : TypeTable} {around around' : List Nat} {n m : Node}

namespace Formed

theorem of_parts (hinert : n.isInert) (hparts : ∀ c ∈ n.children, c.Formed scene around)
    (hfaithful : n.layout.isFaithful) (hshaped : n.IsShaped scene.functions) :
    n.Formed scene around where
  enclosed := enclosed_of_parts hinert (fun c hc => (hparts c hc).enclosed)
  shaped := .intro hfaithful hshaped (fun c hc => (hparts c hc).shaped)

theorem of_label {l : Nat} (hlabel : n.label? = some l) (hown : n.ownTargets = [])
    (hparts : ∀ c ∈ n.children, c.Formed scene (l :: around)) (hfaithful : n.layout.isFaithful)
    (hshaped : n.IsShaped scene.functions) : n.Formed scene around where
  enclosed := by
    refine .intro (by simp [hown]) (fun c hc => ?_)
    rw [hlabel]
    exact (hparts c hc).enclosed
  shaped := .intro hfaithful hshaped (fun c hc => (hparts c hc).shaped)

theorem mono (h : n.Formed scene around) (hsub : around ⊆ around') : n.Formed scene around' :=
  ⟨h.enclosed.mono hsub, h.shaped⟩

theorem of_free (hshaped : n.Shaped scene.functions) (hfree : n.demand.Free) : n.Formed scene around :=
  ⟨enclosed_of_targets hfree.2 around, hshaped⟩

theorem of_constant? (h : n.constant?.isSome) (hfaithful : n.layout.isFaithful) : n.Formed scene around :=
  ⟨enclosed_of_targets (targets_of_constant? h) around, shaped_of_constant? h hfaithful⟩

theorem child {c : Node} (h : n.Formed scene around) (hlabel : n.label? = none)
    (hc : c ∈ n.children) : c.Formed scene around :=
  ⟨h.enclosed.child hlabel hc, h.shaped.child hc⟩

/-- The parts of a conditional, whose alternative may be missing. -/
theorem of_choice {info : Info} {cond yes no : Node} (hcond : cond.Formed scene around)
    (hyes : yes.Formed scene around) (hno : no.isAbsent = false → no.Formed scene around) :
    ∀ c ∈ (ifElse info cond yes no).children, c.Formed scene around := by
  rw [children_ifElse]
  split
  · simp [hcond, hyes]
  next habsent => simp [hcond, hyes, hno (Bool.not_eq_true _ ▸ habsent)]

end Formed

theorem reference_spec {pos : Position} (h : n.reference pos = .ok m) :
    m.demand = n.demand ∧ (∀ scene around, n.Formed scene around → m.Formed scene around) ∧
      ∀ types, n.Whole types → m.Whole types := by
  have hformed {k : Node} (hlayout : k.layout = n.layout)
      (hown : k.ownTargets = n.ownTargets ∧ k.label? = n.label? ∧ k.children = n.children)
      (hshaped : ∀ functions, n.IsShaped functions → k.IsShaped functions) (scene : Scene)
      (around : List Nat) (hn : n.Formed scene around) : k.Formed scene around := by
    obtain ⟨henclosed, hns⟩ := hn
    refine ⟨?_, .intro (hlayout ▸ hns.isFaithful) (hshaped _ hns.isShaped) ?_⟩
    · rw [enclosed_iff] at henclosed ⊢
      rwa [hown.1, hown.2.1, hown.2.2]
    · rw [hown.2.2]
      exact fun c hc => hns.child hc
  cases n with
  | absent => cases h
  | structLit info fields =>
    cases h
    refine ⟨rfl, hformed rfl ⟨rfl, rfl, rfl⟩ (fun _ => id), fun types hwhole => ?_⟩
    cases hwhole with
    | plain hplain => cases hplain
    | structLit hlayout hparts hknown hall => exact .structLit hlayout hparts hknown hall
  | arrayLit info elems =>
    cases h
    refine ⟨rfl, hformed rfl ⟨rfl, rfl, rfl⟩ (fun _ => id), fun types hwhole => ?_⟩
    cases hwhole with
    | plain hplain => cases hplain
    | arrayLit hlayout hlen hparts hknown hall =>
      exact .arrayLit hlayout hlen hparts hknown hall
  | ifElse info cond yes no | ret info value =>
    cases h
    refine ⟨rfl, hformed rfl ⟨rfl, rfl, ?_⟩ (fun _ => id), fun _ _ => .plain rfl⟩
    simp only [children_ifElse, children_ret]
  | _ =>
    cases h
    exact ⟨rfl, hformed rfl ⟨rfl, rfl, rfl⟩ (fun _ => id), fun _ _ => .plain rfl⟩

end Node

/-- The labels that jumps lead to. -/
def LowerContext.around (ctx : LowerContext) : List Nat := ctx.breakTo.toList ++ ctx.continueTo.toList

namespace Scene

open LowerState (Supplies Takes Grows)

variable (scene : Scene)

/-- Storage for values of a type that the state has. -/
structure Houses (s : LowerState) (t : Ty) (n : Node) : Prop where
  layout : scene.types.layout t = .ok n.layout
  place : n.isPlace
  free : n.demand.Free
  provided : ∀ need ∈ n.needs, s.Provides scene need
  shaped : n.Shaped scene.functions

/-- A name is bound to what it stands for in the check, from the same declaration. -/
def Means (s : LowerState) (value : TypedName) (binding : Binding) : Prop :=
  binding.declared = value.declared ∧
    match binding with
    | .function f => value.isFunction ∧ scene.Calls value.type f
    | .variable n | .parameter n => value.isFunction = false ∧ scene.Houses s value.type n

/-- The names in sight are those of the check, and no name is bound in the innermost level that the
check could still bind there. -/
structure Follows (names : Chain TypedName) (s : LowerState) : Prop where
  types : s.table = scene.types
  found : ∀ name value, names.lookup name = some value →
    ∃ binding, s.names.lookup name = some binding ∧ scene.Means s value binding
  unbound : ∀ name, names.lookupLocal name = none → s.names.lookupLocal name = none

/-- Lowering stands where the check did. -/
structure Goes (check : CheckContext) (names : Chain TypedName) (ctx : LowerContext)
    (s : LowerState) : Prop extends Follows scene names s where
  admits : ctx.Admits s
  breaks : check.inBreakable → ctx.breakTo.isSome
  continues : check.inLoop → ctx.continueTo.isSome
  returns : check.function.isSome → ctx.inFunction

/-- The value of a tree was built between two states. -/
structure Brings (ctx : LowerContext) (s : LowerState) (tree : Tree) (n : Node)
    (s' : LowerState) : Prop extends Takes scene s s' n.demand where
  formed : n.Formed scene ctx.around
  type : ∃ l, scene.types.layout tree.type = .ok l ∧ n.layout.Similar l
  known : scene.types.Has n.layout
  whole : n.Whole scene.types
  place : tree.isPlace → n.isPlace

/-- A statement was built between two states. -/
structure Makes (ctx : LowerContext) (s : LowerState) (n : Node) (s' : LowerState) : Prop extends
    Supplies scene s s' n.demand where
  formed : n.Formed scene ctx.around
  void : n.layout.isVoid

/-- Statements were built one after the other. -/
structure MakesAll (ctx : LowerContext) (s : LowerState) (nodes : List Node)
    (s' : LowerState) : Prop extends Supplies scene s s' (Node.demandAll nodes) where
  formed : ∀ n ∈ nodes, n.Formed scene ctx.around
  void : ∀ n ∈ nodes, n.layout.isVoid

/-- Lowering a tree as a value looks up the given names and builds its value. -/
def Evaluates (check : CheckContext) (names : Chain TypedName) (uses : List Resolution)
    (x : Lowering) : Prop :=
  ∀ ⦃ctx s⦄, scene.Goes check names ctx s → x.value.Does ctx s uses (scene.Brings ctx s x.node)

/-- A step looks up the given names and builds a statement that binds none. -/
def Stays (check : CheckContext) (names : Chain TypedName) (uses : List Resolution) (x : Lower Node) : Prop :=
  ∀ ⦃ctx s⦄, scene.Goes check names ctx s →
    x.Does ctx s uses (fun n s' => scene.Makes ctx s n s' ∧ s'.names = s.names)

/-- A step looks up the given names and builds a statement, which may bind further names. -/
def Proceeds (check : CheckContext) (names : Chain TypedName) (uses : List Resolution)
    (names' : Chain TypedName) (x : Lower Node) : Prop :=
  ∀ ⦃ctx s⦄, scene.Goes check names ctx s →
    x.Does ctx s uses (fun n s' => scene.Makes ctx s n s' ∧ scene.Goes check names' ctx s')

/-- The statements of a list, one after the other. -/
inductive ProceedAll (check : CheckContext) :
    Chain TypedName → List Resolution → List Lowering → Chain TypedName → Prop
  | nil {names} : ProceedAll check names [] [] names
  | cons {names names' names'' uses uses' x rest} :
      scene.Proceeds check names uses names' x.statement →
      ProceedAll check names' uses' rest names'' →
      ProceedAll check names (uses ++ uses') (x :: rest) names''

variable {scene} {s s' : LowerState} {names : Chain TypedName} {check : CheckContext}
  {ctx : LowerContext} {d : Demand}

theorem Houses.mono {t : Ty} {n : Node} (h : scene.Houses s t n) (hpool : s.pool.Extends s'.pool)
    (hmemory : s.needsMemory = true → s'.needsMemory = true) : scene.Houses s' t n :=
  { h with provided := fun need hneed => (h.provided need hneed).mono hpool hmemory }

theorem Means.mono {value : TypedName} {binding : Binding} (h : scene.Means s value binding)
    (hpool : s.pool.Extends s'.pool) (hmemory : s.needsMemory = true → s'.needsMemory = true) :
    scene.Means s' value binding :=
  match binding, h with
  | .function _, h => h
  | .variable _, h | .parameter _, h => ⟨h.1, h.2.1, h.2.2.mono hpool hmemory⟩

namespace Follows

section

variable (h : scene.Follows names s)
include h

/-- Names that are found as before are still those of the check. -/
theorem mono (htable : s'.table = s.table) (hpool : s.pool.Extends s'.pool)
    (hmemory : s.needsMemory = true → s'.needsMemory = true)
    (hnames : ∀ name, s'.names.lookup name = s.names.lookup name)
    (hunbound : ∀ name, names.lookupLocal name = none → s'.names.lookupLocal name = none) :
    scene.Follows names s' where
  types := htable.trans h.types
  found := by
    intro name value hvalue
    obtain ⟨binding, hfound, hmeans⟩ := h.found name value hvalue
    exact ⟨binding, (hnames name).trans hfound, hmeans.mono hpool hmemory⟩
  unbound := hunbound

theorem of_supplies (hsupplies : s.Supplies scene s' d) (hnames : s'.names = s.names) :
    scene.Follows names s' :=
  h.mono hsupplies.grows.table hsupplies.grows.pool hsupplies.memory (fun name => by rw [hnames])
    (fun name hname => by rw [hnames]; exact h.unbound name hname)

theorem inner : scene.Follows names s.opened :=
  h.mono rfl (.refl _) id (fun name => Chain.lookup_empty_cons s.names name) (fun _ _ => rfl)

theorem level : scene.Follows (Level.empty :: names) s.opened where
  types := h.types
  found := by
    intro name value hvalue
    rw [Chain.lookup_empty_cons] at hvalue
    exact h.inner.found name value hvalue
  unbound := fun _ _ => rfl

theorem define (name : String) {value : TypedName} {binding : Binding}
    (hmeans : scene.Means s value binding) :
    scene.Follows (names.define name value) { s with names := s.names.define name binding } where
  types := h.types
  found := by
    intro other value' hvalue'
    rw [Chain.lookup_define] at hvalue'
    rw [Chain.lookup_define]
    split at hvalue'
    next hother =>
      cases hvalue'
      exact ⟨binding, by rw [if_pos hother], hmeans.mono (.refl _) id⟩
    next hother =>
      obtain ⟨binding', hfound, hmeans'⟩ := h.found other value' hvalue'
      exact ⟨binding', by rw [if_neg hother, hfound], hmeans'.mono (.refl _) id⟩
  unbound := by
    intro other hother
    rw [Chain.lookupLocal_define] at hother ⊢
    split at hother
    · cases hother
    next hne => rw [if_neg hne, h.unbound other hother]

end

end Follows

namespace Goes

section

variable (h : scene.Goes check names ctx s)
include h

theorem of_supplies (hsupplies : s.Supplies scene s' d) (hnames : s'.names = s.names) :
    scene.Goes check names ctx s' :=
  { h with
    toFollows := h.toFollows.of_supplies hsupplies hnames
    admits := h.admits.of_grows hsupplies.grows }

theorem of_takes (htakes : s.Takes scene s' d) : scene.Goes check names ctx s' :=
  h.of_supplies htakes.toSupplies htakes.names

end

end Goes

end Scene

end TreeWasm
