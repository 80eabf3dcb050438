import TreeWasm.Proofs.Building.Follows

/-! # Building values

The rules by which the value of a tree is built from those of its parts. Each follows the lowering of
one form of expression: it looks up the names that the check looked up, in the same order, and what it
builds fits together whatever the literals in the tree are.
-/

namespace TreeWasm

open Wasm
open TypeTable (isFaithful_layout layout_unwrap)
open Lowering (ofExpression)

namespace Node

@[simp]
theorem layout_constant (info : Info) (c : Constant) : (constant info c).layout = info.layout := by
  unfold constant
  split
  · rfl
  · split <;> rfl

theorem demand_of_constant? {n : Node} (h : n.constant?.isSome) : n.demand = .none := by
  have hnone := needs_of_constant? h
  rw [demand, hnone.1, hnone.2, targets_of_constant? h]
  rfl

@[simp]
theorem demand_int32 (info : Info) (v : Int32) : (int32 info v).demand = .none := rfl

theorem isLiteral_of_constant? {n : Node} (h : n.constant?.isSome) : n.isLiteral = false := by
  cases n with
  | structLit | arrayLit => cases h
  | _ => rfl

end Node

namespace Scene

open LowerState (Supplies Takes Settles)
open Lower (does_layoutOf does_ofResult)

variable {scene : Scene} {check : CheckContext} {names names' : Chain TypedName}
  {uses uses' uses'' : List Resolution} {ctx : LowerContext} {s s' s'' : LowerState}
  {tree : Tree} {n x y : Node} {l : Layout} {d : Demand} {layouts : List Layout}
  {parts : List Lowering} {around : List Nat} {nodes : List Node} {trees : List Tree}
  {types : List Ty} {left right : Lowering} {occurrence : Nat} {op : Operator} {pos : Position}
  {name : String} {p q : Tree} {info : TreeInfo} {elem t : Ty} {value : TypedName}

namespace Brings

/-- What is known of a value that is neither a place nor a literal with parts. -/
theorem plain (htakes : s.Takes scene s' n.demand) (hformed : n.Formed scene ctx.around)
    (hl : scene.types.layout tree.type = .ok n.layout) (hplace : tree.isPlace = false)
    (hplain : n.isLiteral = false) : scene.Brings ctx s tree n s' where
  toTakes := htakes
  formed := hformed
  type := ⟨n.layout, hl, .refl _⟩
  known := ⟨tree.type, hl⟩
  whole := .plain hplain
  place := fun h => absurd h (by simp [hplace])

theorem of_parts (hinert : n.isInert) (htakes : s.Takes scene s' n.demand)
    (hparts : ∀ c ∈ n.children, c.Formed scene ctx.around) (hshaped : n.IsShaped scene.functions)
    (hl : scene.types.layout tree.type = .ok n.layout) (hplace : tree.isPlace = false)
    (hplain : n.isLiteral = false) : scene.Brings ctx s tree n s' :=
  .plain htakes (.of_parts hinert hparts (isFaithful_layout hl) hshaped) hl hplace hplain

theorem constant (h : n.constant?.isSome) (hl : scene.types.layout tree.type = .ok n.layout)
    (hplace : tree.isPlace = false) : scene.Brings ctx s tree n s := by
  refine .plain ?_ (.of_constant? h (isFaithful_layout hl)) hl hplace
    (Node.isLiteral_of_constant? h)
  rw [Node.demand_of_constant? h]
  exact .none s

section

variable (h : scene.Brings ctx s tree n s')
include h

theorem similar (hl : scene.types.layout tree.type = .ok l) : n.layout.Similar l := by
  obtain ⟨m, hm, hsimilar⟩ := h.type
  obtain rfl : m = l := Except.ok.inj (hm.symm.trans hl)
  exact hsimilar

theorem scalar?_eq : n.layout.scalar? = tree.type.scalar? := by
  obtain ⟨l, hl, hsimilar⟩ := h.type
  rw [hsimilar.alike.2, TypeTable.scalar?_layout hl]

theorem similar_of_takes {t : Ty} (htakes : t.takes tree.type) (hl : scene.types.layout t = .ok l) :
    n.layout.Similar l := by
  obtain ⟨m, hm, hsimilar⟩ := h.type
  rw [← layout_unwrap] at hl hm
  exact hsimilar.trans (TypeTable.similar_layout htakes hl hm).symm

theorem isFaithful : n.layout.isFaithful := h.known.isFaithful

/-- A value of the kind of a type is represented like any of that type. -/
theorem alike_of_scalar? {t : Ty} (hscalar : tree.type.scalar?.isSome)
    (ht : t.scalar? = tree.type.scalar?) (hl : scene.types.layout t = .ok l) :
    n.layout.Alike l := by
  refine Layout.alike_of_scalar?_eq ?_ ?_
  · rw [Layout.isScalar, h.scalar?_eq]
    exact hscalar
  · rw [h.scalar?_eq, TypeTable.scalar?_layout hl, ht]

end

end Brings

theorem evaluates_ofExpression {value : Layout → Lower Node}
    (h : ∀ ⦃l ctx s⦄, scene.Goes check names ctx s → scene.types.layout tree.type = .ok l →
      (value l).Does ctx s uses (scene.Brings ctx s tree)) :
    scene.Evaluates check names uses (ofExpression tree value) := by
  intro ctx s hgoes
  refine does_layoutOf.bind_nil ?_
  rintro l _ ⟨hl, rfl⟩
  rw [hgoes.types] at hl
  exact h hgoes hl

theorem Evaluates.two {α : Type} {f : Node → Node → Lower α} {P : α → LowerState → Prop}
    (hleft : scene.Evaluates check names uses left)
    (hright : scene.Evaluates check names uses' right) (hgoes : scene.Goes check names ctx s)
    (h : ∀ x y s₁ s₂, scene.Brings ctx s left.node x s₁ →
      scene.Brings ctx s₁ right.node y s₂ → (f x y).Does ctx s₂ [] P) :
    Lower.Does (do let x ← left.value; let y ← right.value; f x y) ctx s (uses ++ uses') P :=
  (hleft hgoes).bind (fun x s₁ hx =>
    (hright (hgoes.of_takes hx.toTakes)).bind_last (fun y s₂ hy => h x y s₁ s₂ hx hy))

/-! ## Literals and names -/

theorem evaluates_number {value : Int64} :
    scene.Evaluates check names [] (ofExpression (.number info value)
      (fun l => return Lowering.number info value l)) := by
  refine evaluates_ofExpression (fun l ctx s _ hl => .pure ?_)
  unfold Lowering.number
  split
  · exact .constant rfl hl rfl
  · refine .constant (Node.constant?_constant _ _) ?_ rfl
    rw [Node.layout_constant]
    exact hl

theorem Houses.brings {storage : Node} (h : scene.Houses s t storage)
    (hn : storage.reference pos = .ok n) (ht : tree.type.unwrap = t.unwrap) :
    scene.Brings ctx s tree n s := by
  obtain ⟨hlayout, hplace⟩ := Node.reference_eq_ok hn
  obtain ⟨hdemand, hformed, -⟩ := Node.reference_spec hn
  have hnplace : n.isPlace := hplace.trans h.place
  refine {
    toTakes := ?_
    formed := hformed _ _ (.of_free h.shaped h.free)
    type := ⟨storage.layout, ?_, by rw [hlayout]; exact .refl _⟩
    known := ⟨t, by rw [hlayout]; exact h.layout⟩
    whole := .plain (Node.isLiteral_eq_of_isPlace hnplace)
    place := fun _ => hnplace }
  · rw [hdemand]
    exact .still h.free h.provided
  · rw [← layout_unwrap, ht, layout_unwrap]
    exact h.layout

theorem evaluates_ident (hlookup : names.lookup name = some value)
    (hfunction : value.isFunction = false) (htype : info.type = .location value.type) :
    scene.Evaluates check names [⟨info.pos, name, value.declared⟩]
      (ofExpression (.ident info name) (fun _ => Lowering.ident info name)) := by
  refine evaluates_ofExpression (fun _ ctx s hgoes _ => ?_)
  obtain ⟨binding, hfound, hmeans⟩ := hgoes.found name value hlookup
  rw [← hmeans.1]
  refine (Lower.does_resolve scene hfound).bind_last ?_
  rintro bound s₁ ⟨rfl, htakes⟩
  have hstored {storage : Node} (hhouses : scene.Houses s value.type storage) :
      (Lower.ofResult (storage.reference info.pos)).Does ctx s₁ []
        (scene.Brings ctx s (.ident info name)) := by
    refine (does_ofResult (fun _ => Node.isOrdinary_of_reference)).mono ?_
    rintro n s₂ ⟨hn, rfl⟩
    have hhouses := hhouses.mono htakes.grows.pool htakes.memory
    have hbrings : scene.Brings ctx s₂ (.ident info name) n s₂ :=
      hhouses.brings hn (by rw [show Tree.type (.ident info name) = _ from htype, Ty.unwrap])
    exact { hbrings with toTakes := htakes.trans hbrings.toTakes }
  cases bound with
  | function _ => exact absurd hmeans.2.1 (by simp [hfunction])
  | _ => exact hstored hmeans.2.2

/-! ## Operations -/

theorem evaluates_logical (hop : op = .both ∨ op = .either)
    (hleft : scene.Evaluates check names uses left)
    (hright : scene.Evaluates check names uses' right) (hr : right.node.type.isBuiltin .bool)
    (ht : info.type = .bool) :
    scene.Evaluates check names (uses ++ uses') (ofExpression (.binary info op p q)
      (Lowering.binary info op left right)) := by
  refine evaluates_ofExpression (fun l ctx s hgoes hl => ?_)
  refine hleft.two hright hgoes (fun x y s₁ s₂ hx hy => ?_)
  have hfaithful := isFaithful_layout hl
  have hy_alike : y.layout.Alike l := by
    have hkind := Ty.isBuiltin_bool_iff.mp hr
    refine hy.alike_of_scalar? (by rw [hkind]; rfl) ?_ hl
    rw [hkind, show Tree.type (.binary info op p q) = _ from ht]
    rfl
  have htruth (v : Int32) : (Node.int32 ⟨info.pos, l⟩ v).Formed scene ctx.around :=
    .of_constant? rfl hfaithful
  have htakes := hx.toTakes.append hy.toTakes
  rcases hop with rfl | rfl
  · refine .pure (.of_parts rfl ?_ ?_ ⟨hy_alike, .inr (.refl l)⟩ hl rfl rfl)
    · simpa using htakes
    · exact .of_choice hx.formed hy.formed (fun _ => htruth 0)
  · refine .pure (.of_parts rfl ?_ ?_ ⟨.refl l, .inr hy_alike⟩ hl rfl rfl)
    · simpa using htakes
    · exact .of_choice hx.formed (htruth 1) (fun _ => hy.formed)

theorem evaluates_relation {rel : Relation} (hleft : scene.Evaluates check names uses left)
    (hright : scene.Evaluates check names uses' right) :
    scene.Evaluates check names (uses ++ uses')
      (ofExpression (.binary info (.relation rel) p q)
        (Lowering.binary info (.relation rel) left right)) := by
  refine evaluates_ofExpression (fun l ctx s hgoes hl => ?_)
  refine hleft.two hright hgoes (fun x y s₁ s₂ hx hy => ?_)
  refine .pure (.of_parts rfl (hx.toTakes.append hy.toTakes) ?_ trivial hl rfl rfl)
  simp [hx.formed, hy.formed]

/-! ### Pointers -/

theorem does_stride : (Lowering.stride elem).Does ctx s [] (fun _ s' => s' = s) := by
  refine does_layoutOf.bind_nil ?_
  rintro _ _ ⟨-, rfl⟩
  exact .pure rfl

theorem indexValue_spec (h : n.Formed scene around) :
    (Lowering.indexValue n).Formed scene around ∧ (Lowering.indexValue n).demand = n.demand := by
  unfold Lowering.indexValue
  split
  next hslot =>
    refine ⟨.of_parts rfl (by simpa using h) rfl (.inr ⟨?_, rfl⟩), rfl⟩
    exact Layout.isScalar_of_slot hslot nofun
  · exact ⟨h, rfl⟩

theorem offsetIndex_spec (h : n.Formed scene around) :
    (Lowering.offsetIndex pos op n).Formed scene around ∧
      (Lowering.offsetIndex pos op n).demand = n.demand := by
  obtain ⟨hformed, hdemand⟩ := indexValue_spec h
  unfold Lowering.offsetIndex
  split
  · exact ⟨.of_parts rfl (by simpa using hformed) rfl nofun, hdemand⟩
  · exact ⟨hformed, hdemand⟩

theorem formed_offsetBy {size : Int64} (hx : x.Formed scene around) (hy : y.Formed scene around) :
    (Node.offsetBy pos x y size).Formed scene around :=
  .of_parts rfl (by simp [Node.offsetBy, hx, hy]) hx.shaped.isFaithful (.refl _)

theorem does_pointerArith {op : Arith} {left right : Tree} {s₁ s₂ : LowerState}
    (hx : scene.Brings ctx s left x s₁) (hy : scene.Brings ctx s₁ right y s₂)
    (hl : scene.types.layout info.type = .ok l) (hpointer : left.type.isPointer)
    (hresult : Typing.resultOf (.arith op) left.type.unwrap right.type.unwrap = some info.type) :
    (Lowering.pointerArith ⟨info.pos, l⟩ (.arith op) elem right.type x y).Does ctx s₂ []
      (scene.Brings ctx s (.binary info (.arith op) p q)) := by
  refine does_stride.bind_nil ?_
  rintro size s₃ rfl
  have htakes := hx.toTakes.append hy.toTakes
  have hunwrap : left.type.unwrap.isPointer := by rwa [Ty.isPointer_unwrap]
  have hxkind : x.layout.scalar? = some .pointer := hx.scalar?_eq.trans (Ty.isPointer_iff.mp hpointer)
  refine .ite (fun hright => ?_) (fun hright => .pure ?_)
  · -- The difference of two pointers is counted in elements.
    rw [Ty.isPointer_unwrap] at hright
    have hykind : y.layout.scalar? = some .pointer := hy.scalar?_eq.trans (Ty.isPointer_iff.mp hright)
    have hlscalar : l.isScalar := by
      obtain ⟨hinteger, -⟩ | ⟨-, htype⟩ := Typing.resultOf_of_isPointer hunwrap hresult
      · obtain ⟨kind, hkind, hinteger⟩ := Ty.isInteger_iff.mp hinteger
        rw [Ty.scalar?_unwrap, Ty.isPointer_iff.mp hright] at hkind
        cases hkind
        cases hinteger
      · rw [Layout.isScalar, TypeTable.scalar?_layout hl, htype]
        rfl
    have hconvert {m : Node} (hm : m.Formed scene ctx.around)
        (hkind : m.layout.scalar? = some .pointer) :
        (Node.convert ⟨info.pos, l⟩ m).Formed scene ctx.around := by
      refine .of_parts rfl (by simpa using hm) (isFaithful_layout hl) (.inr ⟨?_, hlscalar⟩)
      rw [Layout.isScalar, hkind]
      rfl
    have hdifference : scene.Brings ctx s (.binary info (.arith op) p q)
        (.binary ⟨info.pos, l⟩ (.arith .sub) (.convert ⟨info.pos, l⟩ x) (.convert ⟨info.pos, l⟩ y))
        s₃ := by
      refine .of_parts rfl htakes ?_ ⟨.refl l, .refl l⟩ hl rfl rfl
      simp [hconvert hx.formed hxkind, hconvert hy.formed hykind]
    refine .ite (fun _ => .pure hdifference) (fun _ => .pure ?_)
    refine .of_parts rfl ?_ ?_ ⟨.refl l, .refl l⟩ hl rfl rfl
    · simpa using htakes
    · have hsize : (Node.int32 ⟨info.pos, l⟩ size.toInt32).Formed scene ctx.around :=
        .of_constant? rfl (isFaithful_layout hl)
      simp [hdifference.formed, hsize]
  · obtain ⟨-, htype⟩ | ⟨hsame, -⟩ := Typing.resultOf_of_isPointer hunwrap hresult
    · obtain ⟨hformed, hdemand⟩ := offsetIndex_spec hy.formed
      refine {
        toTakes := ?_
        formed := formed_offsetBy hx.formed hformed
        type := ⟨l, hl, ?_⟩
        known := hx.known
        whole := .plain rfl
        place := by rintro ⟨⟩ }
      · rw [Node.offsetBy, Node.demand_scaledOffset, hdemand]
        exact htakes
      · rw [htype, layout_unwrap] at hl
        exact hx.similar hl
    · -- Only another pointer is of the type of a pointer.
      have hykind : right.type.isPointer := by
        obtain ⟨m, hm, hsimilar⟩ := hx.type
        rw [Ty.isPointer_iff, ← hy.scalar?_eq, (hy.similar_of_takes hsame hm).alike.2,
          ← hsimilar.alike.2, hxkind]
      rw [Ty.isPointer_unwrap] at hright
      exact absurd hykind hright

section

variable 
  (hleft : scene.Evaluates check names uses left) (hright : scene.Evaluates check names uses' right)
include hleft hright

theorem evaluates_arith {op : Arith}
    (hresult : Typing.resultOf (.arith op) left.node.type.unwrap right.node.type.unwrap = some info.type) :
    scene.Evaluates check names (uses ++ uses') (ofExpression (.binary info (.arith op) p q)
      (Lowering.binary info (.arith op) left right)) := by
  refine evaluates_ofExpression (fun l ctx s hgoes hl => ?_)
  refine hleft.two hright hgoes (fun x y s₁ s₂ hx hy => ?_)
  cases hpointer : left.node.type.isPointer with
  | true =>
    obtain ⟨occurrence, elem, htype⟩ := Ty.exists_of_isPointer hpointer
    simp only [Operator.isComparison, htype]
    exact does_pointerArith hx hy hl hpointer hresult
  | false =>
    have hunwrap : left.node.type.unwrap.isPointer = false := by rwa [Ty.isPointer_unwrap]
    obtain ⟨hsame, htype, kind, hkind, hinstr⟩ := Typing.arith?_of_resultOf hunwrap hresult
    have hleft : scene.types.layout left.node.type = .ok l := by
      rw [← layout_unwrap, ← htype]
      exact hl
    have hbrings : scene.Brings ctx s (.binary info (.arith op) p q)
        (.binary ⟨info.pos, l⟩ (.arith op) x y) s₂ := by
      refine .of_parts rfl (hx.toTakes.append hy.toTakes) ?_ ⟨?_, ?_⟩ hl rfl rfl
      · simp [hx.formed, hy.formed]
      · exact (hx.similar hleft).alike
      · exact (hy.similar_of_takes hsame hleft).alike
    cases htype : left.node.type.unwrap with
    | pointer => simp [Ty.isPointer, htype] at hpointer
    | _ => exact .pure hbrings

theorem evaluates_binary
    (hresult : Typing.resultOf op left.node.type.unwrap right.node.type.unwrap = some info.type) :
    scene.Evaluates check names (uses ++ uses') (ofExpression (.binary info op p q)
      (Lowering.binary info op left right)) := by
  cases op with
  | relation rel => exact evaluates_relation hleft hright
  | arith op => exact evaluates_arith hleft hright hresult
  | _ => cases hresult

end

/-- An operation on one value. A negated truth value is one again. -/
theorem evaluates_unary {operand : Lowering} (h : scene.Evaluates check names uses operand)
    (hnot : op = .not → operand.node.type.isBuiltin .bool ∧ info.type = .bool) :
    scene.Evaluates check names uses (ofExpression (.unary info op p)
      (fun l => return .unary ⟨info.pos, l⟩ op (← operand.value))) := by
  refine evaluates_ofExpression (fun l ctx s hgoes hl => ?_)
  refine (h hgoes).map (fun x s₁ hx => ?_)
  refine .of_parts rfl hx.toTakes (by simp [hx.formed]) (fun hop => ?_) hl rfl rfl
  obtain ⟨hbool, htype⟩ := hnot hop
  have hkind := Ty.isBuiltin_bool_iff.mp hbool
  refine hx.alike_of_scalar? (by rw [hkind]; rfl) ?_ hl
  rw [hkind, show Tree.type (.unary info op p) = _ from htype]
  rfl

/-! ## Calls and literals with parts -/

/-- Values one after the other. -/
structure BringsAll (scene : Scene) (ctx : LowerContext) (s : LowerState) (types : List Ty)
    (nodes : List Node) (s' : LowerState) : Prop extends
    Takes scene s s' (Node.demandAll nodes) where
  formed : ∀ n ∈ nodes, n.Formed scene ctx.around
  similar : List.Forall₂ (fun t (n : Node) => ∀ l, scene.types.layout t = .ok l → n.layout.Similar l)
    types nodes
  known : ∀ n ∈ nodes, scene.types.Has n.layout
  whole : ∀ n ∈ nodes, n.Whole scene.types

/-- Lowering the trees as values looks up the given names and builds values of the given types. -/
def EvaluateAll (scene : Scene) (check : CheckContext) (names : Chain TypedName)
    (uses : List Resolution) (types : List Ty) (xs : List Lowering) : Prop :=
  ∀ ⦃ctx s⦄, scene.Goes check names ctx s →
    Lower.Does (xs.mapM Lowering.value) ctx s uses (scene.BringsAll ctx s types)

theorem evaluateAll_cons {x : Lowering} {xs : List Lowering}
    (hx : scene.Evaluates check names uses x) (htakes : t.takes x.node.type)
    (hxs : scene.EvaluateAll check names uses' types xs) :
    scene.EvaluateAll check names (uses ++ uses') (t :: types) (x :: xs) := by
  intro ctx s hgoes
  rw [List.mapM_cons]
  refine (hx hgoes).bind (fun n s₁ hn => ?_)
  refine (hxs (hgoes.of_takes hn.toTakes)).map (fun nodes s₂ hnodes => ?_)
  exact {
    toTakes := hn.toTakes.append hnodes.toTakes
    formed := List.forall_mem_cons.mpr ⟨hn.formed, hnodes.formed⟩
    similar := .cons (fun l hl => hn.similar_of_takes htakes hl) hnodes.similar
    known := List.forall_mem_cons.mpr ⟨hn.known, hnodes.known⟩
    whole := List.forall_mem_cons.mpr ⟨hn.whole, hnodes.whole⟩ }

theorem evaluates_call {calleeInfo : TreeInfo} {args : List Lowering} {params : List Ty}
    (hlookup : names.lookup name = some value) (hfunction : value.isFunction)
    (htype : value.type = .function occurrence params info.type)
    (hargs : scene.EvaluateAll check names uses params args) :
    scene.Evaluates check names (⟨calleeInfo.pos, name, value.declared⟩ :: uses)
      (ofExpression (.call info (.ident calleeInfo name) trees)
        (Lowering.call info (.ident calleeInfo name) args)) := by
  refine evaluates_ofExpression (fun l ctx s hgoes hl => ?_)
  obtain ⟨binding, hfound, hmeans⟩ := hgoes.found name value hlookup
  rw [← hmeans.1]
  refine (Lower.does_resolve scene hfound).bind ?_
  rintro bound s₁ ⟨rfl, htakes⟩
  match bound, hmeans with
  | .variable _, hmeans | .parameter _, hmeans => exact absurd hmeans.2.1 (by simp [hfunction])
  | .function f, hmeans =>
    refine (hargs (hgoes.of_takes htakes)).map (fun nodes s₂ hnodes => ?_)
    have hcalls := hmeans.2.2
    obtain ⟨_, _, _, hcallee, hparams, hresult⟩ := hcalls.type
    cases htype.symm.trans hcallee
    have hsimilar := forall₂_trans (fun _ _ l hn hl => hn l hl) hnodes.similar.flip hparams
    refine .of_parts rfl ?_ (by simpa using hnodes.formed) ⟨?_, ?_⟩ hl rfl rfl
    · rw [Node.demand_call]
      refine htakes.trans (.append (.still ⟨rfl, rfl⟩ ?_) hnodes.toTakes)
      intro need hneed
      obtain rfl := List.mem_singleton.mp hneed
      exact Option.isSome_of_eq_some hcalls.index
    · refine forall_mem_of_forall₂ hsimilar.flip hcalls.params (fun _ _ hn => ?_)
      exact (Layout.Similar.alike hn).symm.1.isOk_leaves
    · refine ⟨f.signature, hcalls.index, ?_⟩
      rw [hcalls.signature]
      exact (flatMap_eq_of_forall₂ (hsimilar.imp (fun _ _ hn => hn.alike.1.slots_eq))).symm

theorem evaluates_structLit {fieldNames : List String} {id : Nat} {aggregate : Aggregate}
    (htype : info.type = .aggregate id) (haggregate : scene.types.get? id = some aggregate)
    (hparts : scene.EvaluateAll check names uses (aggregate.fields.bindings.map Prod.snd) parts) :
    scene.Evaluates check names uses (ofExpression (.structLit info fieldNames trees)
      (fun l => return .structLit ⟨info.pos, l⟩ (← parts.mapM Lowering.value))) := by
  refine evaluates_ofExpression (fun l ctx s hgoes hl => ?_)
  refine (hparts hgoes).map (fun nodes s₁ hnodes => ?_)
  have hlayout : scene.types.layout (.aggregate id) = .ok l := htype ▸ hl
  obtain ⟨a, tag, size, fields, ha, rfl, hbuilds, -⟩ := TypeTable.layout_aggregate hlayout
  obtain rfl : aggregate = a := Option.some.inj (haggregate.symm.trans ha)
  refine {
    toTakes := hnodes.toTakes
    formed := .of_parts rfl (by simpa using hnodes.formed) (isFaithful_layout hl) trivial
    type := ⟨_, hl, .refl _⟩
    known := ⟨_, hl⟩
    whole := .structLit rfl ?_ hnodes.known hnodes.whole
    place := nofun }
  have hsimilar := hnodes.similar
  rw [List.forall₂_map_left_iff] at hsimilar
  exact forall₂_trans (fun _ _ _ hn hfield => hn _ hfield.2) hsimilar.flip hbuilds

theorem evaluates_arrayLit {length : Int64}
    (htype : info.type = .array occurrence (some length) elem)
    (hlen : length.toInt = parts.length)
    (hparts : scene.EvaluateAll check names uses (List.replicate parts.length elem) parts) :
    scene.Evaluates check names uses (ofExpression (.arrayLit info trees)
      (fun l => return .arrayLit ⟨info.pos, l⟩ (← parts.mapM Lowering.value))) := by
  refine evaluates_ofExpression (fun l ctx s hgoes hl => ?_)
  refine (hparts hgoes).map (fun nodes s₁ hnodes => ?_)
  have hlayout : scene.types.layout (.array occurrence (some length) elem) = .ok l := htype ▸ hl
  obtain ⟨el, tag, hel, rfl⟩ := TypeTable.layout_array hlayout
  refine {
    toTakes := hnodes.toTakes
    formed := .of_parts rfl (by simpa using hnodes.formed) (isFaithful_layout hl) trivial
    type := ⟨_, hl, .refl _⟩
    known := ⟨_, hl⟩
    whole := .arrayLit rfl ?_ ?_ hnodes.known hnodes.whole
    place := nofun }
  · rintro _ ⟨⟩
    rw [hlen, ← hnodes.similar.length_eq, List.length_replicate]
  · intro n hn
    obtain ⟨t, ht, hsimilar⟩ := exists_mem_of_forall₂ hnodes.similar hn
    rw [List.eq_of_mem_replicate ht] at hsimilar
    exact hsimilar el hel

end Scene

end TreeWasm
