import TreeWasm.Proofs.Lowering.Failures
import TreeWasm.Proofs.Typing.Tidy

/-! # How lowering is put together

Lowering is put together from few steps. Most of them look at the state or change labels, warnings and
the like. Slots are taken for temporaries and for variables, and given back at the ends of statements
and of levels. `Lower.Composed` says that a step is put together in this way. What is true of the few
steps, and is kept when steps are put together, is true of the lowering of every tree.
-/

namespace TreeWasm

variable {s s' : LowerState} {typed c : Prop} {failure : Failure} {ctx : LowerContext} {t : Ty} {l : Layout}

namespace LowerState

/-- The second state has the types, static memory and names of the first. -/
structure Fixed (s s' : LowerState) : Prop where
  table : s'.table = s.table
  static : s'.static = s.static
  names : s'.names = s.names

/-- In addition, the second state has the slots and temporaries of the first. -/
structure Still (s s' : LowerState) : Prop extends Fixed s s' where
  pool : s'.pool = s.pool
  temps : s'.temps = s.temps

theorem Still.refl (s : LowerState) : s.Still s := ⟨⟨rfl, rfl, rfl⟩, rfl, rfl⟩

theorem Still.trans {s'' : LowerState} (h : s.Still s') (h' : s'.Still s'') : s.Still s'' :=
  ⟨⟨h'.table.trans h.table, h'.static.trans h.static, h'.names.trans h.names⟩,
    h'.pool.trans h.pool, h'.temps.trans h.temps⟩

end LowerState

/-- The failure is not about slots, nor, if all nodes have types, about one that has none. -/
def Failure.Allowed (typed : Prop) (failure : Failure) : Prop :=
  failure.isOfSlots = false ∧ (typed → failure.isUntyped = false)

namespace Lower

variable {α β γ : Type} {typed : Prop}

/-- The step touches neither names nor slots, and fails for allowed reasons only. -/
structure Calm (typed : Prop) (x : Lower α) : Prop where
  still : ∀ (ctx : LowerContext) (s : LowerState), s.Still (x ctx s).2
  allowed : ∀ (ctx : LowerContext) (s : LowerState) (failure : Failure),
    (x ctx s).1 = .error failure → failure.Allowed typed

/-- The step is put together from those that are listed here; `typed` says that it meets no node
without a type. -/
inductive Composed (typed : Prop) : {α : Type} → Lower α → Prop
  | calm {α : Type} {x : Lower α} : Calm typed x → Composed typed x
  | chain {α β : Type} {x : Lower α} {f : α → Lower β} : Composed typed x →
      (∀ a, (∃ ctx s s', x ctx s = (.ok a, s')) → Composed typed (f a)) →
      Composed typed (x >>= f)
  | withReader {α : Type} {x : Lower α} (g : LowerContext → LowerContext) :
      Composed typed x → Composed typed (withReader g x)
  | temporary (pos : Position) (l : Layout) : Composed typed (temporary pos l)
  | declare {α : Type} (pos : Position) (name : String) (l : Layout) {f : Held → Lower α} :
      (∀ held, Composed typed (f held)) → Composed typed (do
        let held ← alloc pos l
        bind pos name (.variable (.locals ⟨pos, l⟩ held.slots))
        f held)
  | inLevel {α : Type} {x : Lower α} : Composed typed x → Composed typed (inLevel x)
  | withTemporaries {α : Type} {x : Lower α} : Composed typed x → Composed typed (withTemporaries x)

namespace Calm

variable {x y : Lower α} {f : α → Lower β}

theorem error (h : Calm typed x) (hrun : x ctx s = (.error failure, s')) : failure.Allowed typed :=
  h.allowed ctx s failure (congrArg Prod.fst hrun)

theorem pure {a : α} : Calm typed (Pure.pure a : Lower α) := ⟨fun _ s => .refl s, by rintro _ _ _ ⟨⟩⟩

theorem throw (h : failure.Allowed typed) : Calm typed (throw failure : Lower α) := by
  refine ⟨fun _ s => .refl s, ?_⟩
  rintro _ _ _ ⟨⟩
  exact h

theorem get : Calm typed (MonadState.get : Lower LowerState) := ⟨fun _ s => .refl s, by rintro _ _ _ ⟨⟩⟩

theorem read : Calm typed (MonadReader.read : Lower LowerContext) := ⟨fun _ s => .refl s, by rintro _ _ _ ⟨⟩⟩

theorem bind (hx : Calm typed x) (hf : ∀ a, Calm typed (f a)) : Calm typed (x >>= f) := by
  refine ⟨fun ctx s => ?_, fun ctx s failure herror => ?_⟩
  · have hfirst := hx.still ctx s
    rcases hrun : x ctx s with ⟨failure | a, s'⟩
    · rw [Steps.bind_of_error hrun]
      rwa [hrun] at hfirst
    · rw [Steps.bind_of_ok hrun]
      rw [hrun] at hfirst
      exact hfirst.trans ((hf a).still ctx s')
  · rcases hrun : x ctx s with ⟨failure' | a, s'⟩
    · rw [Steps.bind_of_error hrun] at herror
      cases herror
      exact hx.allowed ctx s failure (by rw [hrun])
    · rw [Steps.bind_of_ok hrun] at herror
      exact (hf a).allowed ctx s' failure herror

theorem ite [Decidable c] (hx : Calm typed x) (hy : Calm typed y) : Calm typed (if c then x else y) := by
  split
  · exact hx
  · exact hy

theorem seq (hx : Calm typed x) (hf : ∀ a, Composed typed (f a)) : Composed typed (x >>= f) :=
  .chain (.calm hx) (fun a _ => hf a)

end Calm

namespace Composed

variable {x y : Lower α}

theorem bind {f : α → Lower β} (hx : Composed typed x) (hf : ∀ a, Composed typed (f a)) :
    Composed typed (x >>= f) :=
  .chain hx (fun a _ => hf a)

theorem pure {a : α} : Composed typed (Pure.pure a : Lower α) := .calm .pure

theorem throw (h : failure.Allowed typed) : Composed typed (throw failure : Lower α) := .calm (.throw h)

theorem ite [Decidable c] (hx : Composed typed x) (hy : Composed typed y) :
    Composed typed (if c then x else y) := by
  split
  · exact hx
  · exact hy

theorem mapM {f : γ → Lower α} (items : List γ) (h : ∀ item ∈ items, Composed typed (f item)) :
    Composed typed (items.mapM f) := by
  induction items with
  | nil => exact pure
  | cons item rest ih =>
    rw [List.forall_mem_cons] at h
    rw [List.mapM_cons]
    exact h.1.bind (fun a => (ih h.2).bind (fun _ => pure))

end Composed

/-! ## The basic steps -/

theorem calm_ofLayout {result : Except LayoutDefect α} : Calm typed (ofLayout result) := by
  cases result with
  | ok a => exact .pure
  | error defect => exact .throw ⟨rfl, fun _ => rfl⟩

theorem calm_ofResult {result : Except Failure α}
    (h : ∀ failure, result = .error failure → failure.isOrdinary) :
    Calm typed (ofResult result) := by
  cases result with
  | ok a => exact .pure
  | error failure =>
    exact .throw ((Failure.isOrdinary_iff.mp (h failure rfl)).2.imp_right (fun h _ => h))

theorem calm_fail {pos : Position} {fault : LoweringFault} : Calm typed (fail pos fault : Lower α) :=
  .throw ⟨rfl, fun _ => rfl⟩

theorem layoutOf_eq_ok (h : layoutOf t ctx s = (.ok l, s')) : s.table.layout t.unwrap = .ok l ∧ s' = s := by
  unfold layoutOf at h
  split at h
  · cases h
  · obtain ⟨before, s₁, hget, h⟩ := Steps.bind_eq_ok h
    cases hget
    cases hlayout : s.table.layout t.unwrap with
    | error defect =>
      rw [hlayout] at h
      cases h
    | ok l' =>
      rw [hlayout] at h
      cases h
      exact ⟨rfl, rfl⟩

theorem isVoid_of_layout {table : TypeTable} (ht : t.isVoid) (h : table.layout t.unwrap = .ok l) :
    l.isVoid := by
  unfold Ty.isVoid at ht
  split at ht
  · cases h
    rfl
  · cases ht

theorem calm_layoutOf {t : Ty} (h : typed → t.isAbsent = false) : Calm typed (layoutOf t) := by
  unfold layoutOf
  split
  next habsent => exact .throw ⟨rfl, fun htyped => nomatch (h htyped).symm.trans habsent⟩
  · exact Calm.get.bind (fun _ => calm_ofLayout)

theorem calm_enabled {feature : Feature} : Calm typed (enabled feature) := Calm.read.bind (fun _ => .pure)

section Basic

variable (pos : Position) (info : Info) {label : Nat} {n : Node}

theorem calm_warn {notice : Notice} : Calm typed (warn pos notice) := by
  refine Calm.read.bind (fun _ => .ite ?_ .pure)
  exact ⟨fun _ _ => ⟨⟨rfl, rfl, rfl⟩, rfl, rfl⟩, by rintro _ _ _ ⟨⟩⟩

theorem calm_useMemory : Calm typed useMemory := ⟨fun _ _ => ⟨⟨rfl, rfl, rfl⟩, rfl, rfl⟩, by rintro _ _ _ ⟨⟩⟩

theorem calm_freshLabel : Calm typed freshLabel :=
  ⟨fun _ _ => ⟨⟨rfl, rfl, rfl⟩, rfl, rfl⟩, by rintro _ _ _ ⟨⟩⟩

theorem calm_branch : Calm typed (branch info label) :=
  ⟨fun _ _ => ⟨⟨rfl, rfl, rfl⟩, rfl, rfl⟩, by rintro _ _ _ ⟨⟩⟩

theorem calm_branchIf {cond : Node} : Calm typed (branchIf info label cond) :=
  ⟨fun _ _ => ⟨⟨rfl, rfl, rfl⟩, rfl, rfl⟩, by rintro _ _ _ ⟨⟩⟩

theorem calm_branchTable {index : Node} {targets : List Nat} {default : Nat} :
    Calm typed (branchTable info index targets default) :=
  ⟨fun _ _ => ⟨⟨rfl, rfl, rfl⟩, rfl, rfl⟩, by rintro _ _ _ ⟨⟩⟩

theorem calm_fold : Calm typed (fold n) := by
  refine Calm.get.bind (fun s => ?_)
  exact (calm_ofResult (Node.isOrdinary_of_simplify n)).bind (fun _ => .pure)

theorem calm_simplify (n : Node) : Calm typed (simplify n) :=
  calm_enabled.bind (fun _ => .ite calm_fold .pure)

theorem calm_simplifyBody : Calm typed (simplifyBody n) := by
  refine calm_enabled.bind (fun _ => .ite ?_ .pure)
  refine calm_fold.bind (fun folded => ?_)
  -- Which branches were dropped is found out from the state and noted in it at once.
  have hrecount : Calm typed (do
      let state ← MonadState.get
      let counted := state.labels.recount folded
      set { state with labels := counted.1 }
      return counted.2 : Lower Bool) :=
    ⟨fun _ _ => ⟨⟨rfl, rfl, rfl⟩, rfl, rfl⟩, by rintro _ _ _ ⟨⟩⟩
  have hlast (dropped : Bool) : Calm typed (if dropped then fold folded else return folded) :=
    .ite calm_fold .pure
  exact hrecount.bind hlast

theorem calm_find (name : String) : Calm typed (find pos name) := by
  refine Calm.get.bind (fun s => ?_)
  split
  · exact .pure
  · exact .throw ⟨rfl, fun _ => rfl⟩

theorem calm_resolve {name : String} : Calm typed (resolve pos name) := by
  refine (calm_find pos name).bind (fun _ => ?_)
  exact ⟨fun _ _ => ⟨⟨rfl, rfl, rfl⟩, rfl, rfl⟩, by rintro _ _ _ ⟨⟩⟩

theorem calm_requireMultiValue {what : String} : Calm typed (requireMultiValue pos l what) := by
  refine calm_ofLayout.bind (fun _ => calm_enabled.bind (fun _ => ?_))
  exact .ite calm_fail .pure

end Basic

end Lower

/-! ## Expressions and statements -/

/-- A lowering that is put together in each of its roles. -/
structure Lowering.AllComposed (typed : Prop) (x : Lowering) : Prop where
  node : typed → x.node.Typed
  value : Lower.Composed typed x.value
  whole : ∃ y, Lower.Composed typed y ∧ x.statement = Lower.withTemporaries y
  body : Lower.Composed typed x.body

theorem Lowering.AllComposed.statement {x : Lowering} (h : x.AllComposed typed) :
    Lower.Composed typed x.statement := by
  obtain ⟨y, hy, hstatement⟩ := h.whole
  exact hstatement ▸ hy.withTemporaries

namespace Lowering

open Lower

variable {typed : Prop} {value : Layout → Lower Node} {statement : Lower Node} {elem : Ty}
  {exit : Nat} {n : Node} {name : String} {info : TreeInfo} {cases : List SwitchCase} {again : Nat}
  {fallback selector : Node} {op : Operator} {pos : Position} {tree : TreeInfo}

theorem composed_stride (h : typed → elem.isAbsent = false) : Composed typed (stride elem) :=
  (calm_layoutOf h).seq (fun _ => .pure)

theorem composed_ident : Composed typed (ident info name) := by
  refine (calm_resolve _).seq (fun binding => ?_)
  split
  · exact .calm calm_fail
  · exact .calm (calm_ofResult (fun _ => Node.isOrdinary_of_reference))
  · exact .calm (calm_ofResult (fun _ => Node.isOrdinary_of_reference))

variable {x y z : Lowering} {xs : List Lowering}

theorem composed_binary (hx : x.AllComposed typed) (hy : y.AllComposed typed)
    (l : Layout) : Composed typed (binary tree op x y l) := by
  refine hx.value.bind (fun _ => hy.value.bind (fun _ => ?_))
  split
  · exact .pure
  · exact .pure
  · refine .ite .pure ?_
    split
    next hpointer =>
      exact (composed_stride (fun h => (hx.node h).isAbsent_pointee hpointer)).bind
        (fun _ => .ite (.ite .pure .pure) .pure)
    · exact .pure

theorem composed_values (hxs : ∀ x ∈ xs, x.AllComposed typed) : Composed typed (xs.mapM Lowering.value) :=
  .mapM xs (fun x hx => (hxs x hx).value)

theorem composed_call {callee : Tree} (hxs : ∀ x ∈ xs, x.AllComposed typed)
    (l : Layout) : Composed typed (call info callee xs l) := by
  unfold call
  split
  · refine (calm_resolve _).seq (fun binding => ?_)
    split
    · exact (composed_values hxs).bind (fun _ => .pure)
    · exact .calm calm_fail
  · exact .throw ⟨rfl, fun _ => rfl⟩

theorem composed_selectable : Composed typed (selectable n) :=
  .ite .pure (.bind (.temporary _ _) (fun _ => .pure))

theorem composed_reference {prelude : List Node} {part : Except Failure Node}
    (h : ∀ failure, part = .error failure → failure.isOrdinary) :
    Composed typed (do
      let elem ← Lower.ofResult part
      return after info.pos prelude (← Lower.ofResult (elem.reference info.pos))) :=
  (calm_ofResult h).seq (fun _ =>
    (calm_ofResult (fun _ => Node.isOrdinary_of_reference)).seq (fun _ => .pure))

theorem composed_member (hx : x.AllComposed typed) : Composed typed (member info x name) := by
  have hselect (base : Node) : Composed typed (do
      let selected ← selectable base
      let field ← Lower.ofResult (selected.1.select name)
      return after info.pos selected.2 (← Lower.ofResult (field.reference info.pos))) :=
    composed_selectable.bind (fun _ => composed_reference (fun _ => Node.isOrdinary_of_select))
  refine hx.value.bind (fun base => ?_)
  split
  next hpointer =>
    refine calm_useMemory.seq (fun _ => ?_)
    refine (calm_layoutOf (fun h => (hx.node h).isAbsent_pointee hpointer)).seq (fun _ => ?_)
    exact Composed.pure.bind (fun _ => hselect _)
  · exact hselect _

theorem composed_slotIndex {array : Ty} {base index : Node} :
    Composed typed (slotIndex pos array base index) := by
  refine calm_fold.seq (fun folded => ?_)
  split
  · exact .calm calm_fail
  · exact .ite (.calm (Calm.get.bind (fun _ => calm_fail))) .pure

theorem composed_subscript (hx : x.AllComposed typed) (hy : y.AllComposed typed)
    (l : Layout) : Composed typed (subscript info x y l) := by
  refine hx.value.bind (fun base => hy.value.bind (fun idx => .ite ?_ ?_))
  · exact calm_useMemory.seq (fun _ => .pure)
  · refine composed_selectable.bind (fun (base, prelude) => ?_)
    dsimp only
    split
    · exact composed_reference (fun _ => Node.isOrdinary_of_index)
    · exact (composed_slotIndex).bind (fun _ =>
        composed_reference (fun _ => Node.isOrdinary_of_index))

theorem composed_addressOf (hx : x.AllComposed typed) (l : Layout) : Composed typed (addressOf info x l) := by
  refine hx.value.bind (fun n => ?_)
  split
  · exact calm_useMemory.seq (fun _ => .pure)
  · exact .calm calm_fail

theorem composed_blockValue (hxs : ∀ x ∈ xs, x.AllComposed typed) (l : Layout) :
    Composed typed (blockValue info xs l) := by
  unfold blockValue
  split
  · exact .throw ⟨rfl, fun _ => rfl⟩
  next last hlast =>
    refine .bind (.inLevel ?_) (fun _ => .pure)
    refine .bind (.mapM _ (fun x hx => (hxs x (List.dropLast_subset xs hx)).statement)) (fun _ => ?_)
    exact (hxs last (List.mem_of_getLast? hlast)).value.bind (fun _ => .pure)

/-! ### Switches -/

theorem composed_nestCases (info : Info) (cases : List (SwitchCase × Nat))
    (inner : Node) : Composed typed (Switch.nestCases info exit cases inner) := by
  induction cases generalizing inner with
  | nil => exact .pure
  | cons entry rest ih => exact (calm_branch _).seq (fun _ => ih _)

theorem composed_table {lo : Int64} (hi : Int64) :
    Composed typed (Switch.table pos selector lo hi cases fallback exit) :=
  .bind (.mapM _ (fun _ _ => .calm calm_freshLabel)) (fun _ =>
    calm_freshLabel.seq (fun _ => (calm_branchTable _).seq (fun _ =>
      (composed_nestCases _ _ _).bind (fun _ => .pure))))

/-- A statement that may be left out, with what comes after it. -/
theorem composed_unless {α : Type} {f : Node → Lower α}
    (hx : x.node.isMissing = false → x.AllComposed typed) (hf : ∀ n, Composed typed (f n)) :
    Composed typed (if x.node.isMissing then pure n >>= f else x.statement >>= f) := by
  split
  · exact Composed.pure.bind hf
  next hpresent => exact (hx (by simpa using hpresent)).statement.bind hf

/-- What follows once the selector of a switch is settled. -/
theorem composed_settled (hxs : ∀ x ∈ xs, x.AllComposed typed)
    (hy : y.node.isMissing = false → y.AllComposed typed) (sel : Node) (prelude : List Node)
    (dense : Option (Int64 × Int64)) : Composed typed (do
      let exit ← freshLabel
      let (bodies, otherwise) ←
        withReader (fun ctx => { ctx with breakTo := some exit }) (inLevel do
          let bodies ← xs.mapM (fun c => do
            return (⟨c.node.pos, Switch.caseValues c.node, ← c.body⟩ : SwitchCase))
          let otherwise ← if y.node.isMissing then pure (.nop ⟨tree.pos, .unit⟩) else y.statement
          return (bodies, otherwise))
      let inner ← match dense with
        | some (lo, hi) => Switch.table tree.pos sel lo hi bodies otherwise exit
        | none => Switch.chain tree.pos sel bodies otherwise exit
      return Node.seq ⟨tree.pos, .unit⟩ (prelude ++ [.block ⟨tree.pos, .unit⟩ (some exit) [inner]])) := by
  refine calm_freshLabel.seq (fun exit => .bind (.withReader _ (.inLevel (.bind (.mapM _ (fun c hc =>
    (hxs c hc).body.bind (fun _ => .pure))) (fun _ => composed_unless hy (fun _ => .pure))))) (fun _ => ?_))
  cases dense with
  | some range => exact (composed_table _).bind (fun _ => .pure)
  | none =>
    exact .bind (.bind (.mapM _ (fun _ _ => (calm_branch _).seq (fun _ => .pure))) (fun _ => .pure))
      (fun _ => .pure)

/-! ### Statements -/

theorem composed_varDecl (htype : typed → info.type.isAbsent = false)
    (hx : x.node.isMissing = false → x.AllComposed typed) :
    Composed typed (varDecl info name x) := by
  have hrest (l : Layout) (value : Node) : Composed typed (do
      let held ← Lower.alloc info.pos l
      let storage : Node := .locals ⟨info.pos, l⟩ held.slots
      Lower.bind info.pos name (.variable storage)
      return Node.assign ⟨info.pos, .unit⟩ storage value) :=
    .declare info.pos name l (fun held => .pure)
  refine (calm_layoutOf htype).seq (fun l => ?_)
  split
  · exact Calm.read.seq (fun _ =>
      (calm_ofResult (fun _ => isOrdinary_of_zero l)).seq (fun _ => hrest l _))
  next hpresent =>
    exact (hx (by simpa using hpresent)).value.bind (fun _ => hrest l _)

theorem composed_assign (hx : x.AllComposed typed) (hy : y.AllComposed typed) :
    Composed typed (assign tree op x y) := by
  refine hx.value.bind (fun lhs => hy.value.bind (fun rhs => .ite .pure ?_))
  split
  · exact .throw ⟨rfl, fun _ => rfl⟩
  · have hsteady (n : Node) : Composed typed (steadyTarget tree.pos n) := by
      unfold steadyTarget
      split
      · exact .ite .pure (.bind (.temporary _ _) (fun _ => .pure))
      · exact .pure
    refine (hsteady lhs).bind (fun (lhs, prelude) => ?_)
    dsimp only
    split
    next hpointer =>
      exact (composed_stride (fun h => (hx.node h).isAbsent_pointee hpointer)).bind (fun _ => .pure)
    · exact .pure

theorem composed_statements (afterJump : Bool) (hxs : ∀ x ∈ xs, x.AllComposed typed) :
    Composed typed (statements afterJump xs) := by
  induction xs generalizing afterJump with
  | nil => exact .pure
  | cons s rest ih =>
    rw [List.forall_mem_cons] at hxs
    have hrest : Composed typed (do
        let n ← s.statement
        return n :: (← statements (isJump s.node) rest)) :=
      hxs.1.statement.bind (fun _ => (ih _ hxs.2).bind (fun _ => .pure))
    exact .ite ((calm_warn _).seq (fun _ => hrest)) hrest

theorem composed_ifStmt (hx : x.AllComposed typed) (hy : y.AllComposed typed)
    (hz : z.node.isMissing = false → z.AllComposed typed) : Composed typed (ifStmt info x y z) := by
  have hrest (c : Node) : Composed typed (do
      let y ← y.statement
      let n ← if z.node.isMissing then pure .absent else z.statement
      return Node.ifElse ⟨info.pos, .unit⟩ c y n) :=
    hy.statement.bind (fun _ => composed_unless hz (fun _ => .pure))
  refine hx.value.bind (fun c => calm_fold.seq (fun folded => ?_))
  cases folded.constant? with
  | some value => exact (calm_warn _).seq (fun _ => hrest c)
  | none => exact hrest c

theorem composed_loopBody (hx : x.AllComposed typed) : Composed typed (loopBody x exit again) :=
  .withReader _ (.inLevel hx.statement)

theorem composed_loopAround {info : Info} {inner : List Node} :
    Composed typed (loopAround info exit again inner) :=
  (calm_branch _).seq (fun _ => .pure)

theorem composed_whileLoop (hx : x.AllComposed typed) (hy : y.AllComposed typed) :
    Composed typed (whileLoop tree x y) :=
  calm_freshLabel.seq (fun _ => calm_freshLabel.seq (fun _ =>
    hx.value.bind (fun _ => (composed_loopBody hy).bind (fun _ =>
      (calm_branchIf _).seq (fun _ => composed_loopAround)))))

theorem composed_jump {keyword : String} {target : LowerContext → Option Nat} :
    Composed typed (jump info keyword target) := by
  refine Calm.read.seq (fun ctx => ?_)
  split
  · exact .calm (calm_branch _)
  · exact .calm calm_fail

theorem composed_ret (hx : x.node.isMissing = false → x.AllComposed typed) : Composed typed (ret info x) := by
  refine Calm.read.seq (fun _ => .ite (.calm calm_fail) ?_)
  split
  · exact .pure
  next hpresent => exact (hx (by simpa using hpresent)).value.bind (fun _ => .pure)

/-! ### Trees -/

variable {node : Tree}

section

variable (hnode : typed → node.Typed)
include hnode

theorem composed_ofExpression (h : ∀ l, Composed typed (value l)) :
    (ofExpression node value).AllComposed typed := by
  have hvalue : Composed typed (do value (← layoutOf node.type)) :=
    (calm_layoutOf (fun ht => (hnode ht).isAbsent)).seq h
  have hstatement : Composed typed (discard node.pos (do value (← layoutOf node.type))) :=
    hvalue.bind (fun _ => .ite .pure (.ite ((calm_warn _).seq (fun _ => .pure)) .pure))
  exact ⟨hnode, hvalue, ⟨_, hstatement, rfl⟩, hstatement.withTemporaries⟩

theorem composed_ofStatement (h : Composed typed statement) :
    (ofStatement node statement).AllComposed typed := by
  refine ⟨hnode, ?_, ⟨_, h, rfl⟩, h.withTemporaries⟩
  exact (calm_layoutOf (fun ht => (hnode ht).isAbsent)).seq (fun _ => .throw ⟨rfl, fun _ => rfl⟩)

theorem composed_ofEither (hstatement : Composed typed statement)
    (hvalue : node.type.isVoid = false → ∀ l, Composed typed (value l)) :
    (ofEither node statement value).AllComposed typed := by
  refine ⟨hnode, ?_, ⟨_, hstatement, rfl⟩, hstatement.withTemporaries⟩
  refine .chain (.calm (calm_layoutOf (fun ht => (hnode ht).isAbsent))) (fun l hl => ?_)
  split
  · exact .withTemporaries hstatement
  next hl' =>
    obtain ⟨ctx, s, s', hl⟩ := hl
    refine hvalue (Bool.eq_false_iff.mpr (fun hvoid => hl' ?_)) l
    exact isVoid_of_layout hvoid (layoutOf_eq_ok hl).1

end

end Lowering

@[simp]
theorem Tree.node_lowering (tree : Tree) : tree.lowering.node = tree := by
  cases tree <;> rfl

theorem Tree.requires {tree part : Tree} (h : typed → tree.Typed) (hpart : part ∈ tree.required) :
    typed → part.Typed :=
  fun ht => (h ht).required part hpart

open Lower Lowering in
mutual

/-- The lowering of a tree is put together from the basic steps. -/
theorem Tree.composed : (tree : Tree) → (typed → tree.Typed) → tree.lowering.AllComposed typed
  | .number .., h | .float .., h | .bool .., h => composed_ofExpression h (fun _ => .pure)
  | .ident info name, h => composed_ofExpression h (fun _ => composed_ident)
  | .binary info op left right, h =>
    composed_ofExpression h (composed_binary (left.composed (requires h (.head _)))
      (right.composed (requires h (.tail _ (.head _)))))
  | .unary _ _ operand, h =>
    have hoperand := operand.composed (requires h (.head _))
    composed_ofExpression h (fun _ => hoperand.value.bind (fun _ => .pure))
  | .call info callee args, h =>
    composed_ofExpression h (composed_call
      (Tree.composed_lowerings args (fun ht arg harg => (h ht).required arg (.tail _ harg))))
  | .member info value name, h =>
    composed_ofExpression h (fun _ => composed_member (value.composed (requires h (.head _))))
  | .subscript info array index, h =>
    composed_ofExpression h (composed_subscript (array.composed (requires h (.head _)))
      (index.composed (requires h (.tail _ (.head _)))))
  | .deref info pointer, h =>
    have hpointer := pointer.composed (requires h (.head _))
    composed_ofExpression h (fun _ => calm_useMemory.seq (fun _ => hpointer.value.bind (fun _ => .pure)))
  | .addressOf info operand, h =>
    composed_ofExpression h (composed_addressOf (operand.composed (requires h (.head _))))
  | .cast info value _, h =>
    have hvalue := value.composed (requires h (.head _))
    composed_ofExpression h (fun _ => hvalue.value.bind (fun _ =>
      .ite (.calm (calm_ofResult (fun _ => Node.isOrdinary_of_reference))) .pure))
  | .structLit _ _ values, h | .arrayLit _ values, h =>
    composed_ofExpression h (fun _ =>
      (composed_values (Tree.composed_lowerings values (fun ht => (h ht).required))).bind (fun _ => .pure))
  | .ifElse info cond yes no, h =>
    have hcond := cond.composed (requires h (.head _))
    have hyes := yes.composed (requires h (.tail _ (.head _)))
    composed_ofEither h
      (composed_ifStmt hcond hyes (fun hno =>
        no.composed (fun ht => (h ht).optional no (.head _) (no.node_lowering ▸ hno))))
      (fun hvoid _ =>
        have hno := no.composed (requires h (by
          simp [Tree.required, show info.type.isVoid = false from hvoid]))
        (calm_requireMultiValue _).seq (fun _ => hcond.value.bind (fun _ =>
          hyes.value.bind (fun _ => hno.value.bind (fun _ => .pure)))))
  | .block info stmts, h =>
    have hstmts := Tree.composed_lowerings stmts (fun ht => (h ht).required)
    composed_ofEither h (.bind (.inLevel (composed_statements false hstmts)) (fun _ => .pure))
      (fun _ => composed_blockValue hstmts)
  | .varDecl info name _ init, h =>
    composed_ofStatement h (composed_varDecl (fun ht => (h ht).isAbsent)
      (fun hinit => init.composed (fun ht => (h ht).optional init (.head _) (init.node_lowering ▸ hinit))))
  | .assign info op target value, h =>
    composed_ofStatement h (composed_assign (target.composed (requires h (.head _)))
      (value.composed (requires h (.tail _ (.head _)))))
  | .whileLoop info cond body, h =>
    composed_ofStatement h (composed_whileLoop (cond.composed (requires h (.head _)))
      (body.composed (requires h (.tail _ (.head _)))))
  | .loop info body, h =>
    have hbody := body.composed (requires h (.head _))
    composed_ofStatement h (calm_freshLabel.seq (fun _ => calm_freshLabel.seq (fun _ =>
      (composed_loopBody hbody).bind (fun _ => composed_loopAround))))
  | .switch info selector cases fallback, h =>
    have hsettled := composed_settled
      (Tree.composed_lowerings cases (fun ht c hc => (h ht).required c (.tail _ hc)))
      (fun hfallback =>
        fallback.composed (fun ht => (h ht).optional fallback (.head _) (fallback.node_lowering ▸ hfallback)))
    composed_ofStatement h ((selector.composed (requires h (.head _))).value.bind (fun _ =>
      .ite (.bind (.temporary _ _) (fun _ => hsettled _ _ _)) (hsettled _ _ _)))
  | .break info, h | .continue info, h => composed_ofStatement h composed_jump
  | .ret info value, h =>
    composed_ofStatement h (composed_ret (fun hvalue =>
      value.composed (fun ht => (h ht).optional value (.head _) (value.node_lowering ▸ hvalue))))
  | .case info values body, h =>
    have hbody := body.composed (requires h (.head _))
    have hvalue (_ : Layout) : Lower.Composed typed
        (Lower.defect (α := Node) info.pos (.notAValue "Case")) := .throw ⟨rfl, fun _ => rfl⟩
    have hrefused := composed_ofExpression h hvalue
    ⟨h, hrefused.value, hrefused.whole, hbody.statement⟩
  | .missing, h | .importDecl .., h | .funcDecl .., h | .module .., h =>
    composed_ofExpression h (fun _ => .throw ⟨rfl, fun _ => rfl⟩)

theorem Tree.composed_lowerings : (trees : List Tree) →
    (typed → ∀ tree ∈ trees, tree.Typed) → ∀ x ∈ Tree.lowerings trees, x.AllComposed typed
  | [], _, _, hx => nomatch hx
  | tree :: rest, h, x, hx =>
    (List.mem_cons.mp hx).elim
      (fun heq => heq ▸ tree.composed (fun ht => h ht tree (.head _)))
      (Tree.composed_lowerings rest (fun ht other hother => h ht other (.tail _ hother)) x)

end

theorem Tree.composed_initial (init : Tree) (h : typed → init.Typed) :
    Lower.Composed typed (Lower.withTemporaries do Lower.simplify (← init.lowering.value)) :=
  .withTemporaries ((init.composed h).value.bind (fun n => .calm (Lower.calm_simplify n)))

end TreeWasm
