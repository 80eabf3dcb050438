import TreeWasm.Proofs.Building.Parts

/-! # Building statements

The rules by which statements are built. A statement takes the names that the check looked up, gives
back its temporaries at its end, and binds a name only if the check did. A loop carries its two labels
itself, so that its body may branch to them.
-/

namespace TreeWasm

open Wasm

namespace Scene

open LowerState (Supplies Takes Settles Keeps)
open Lower (does_layoutOf does_ofResult does_temporary)

variable {scene : Scene} {check : CheckContext} {names names' names'' inner : Chain TypedName}
  {uses uses' uses'' : List Resolution} {ctx : LowerContext} {s s' s'' : LowerState}
  {tree : Tree} {n m x y : Node} {nodes : List Node} {l : Layout} {d : Demand} {address : Layout}
  {xs : List Lowering} {body cond init no target value yes : Lowering} {again exit : Nat}
  {functions : Nat → Option FuncType} {pos : Position} {name : String} {info : TreeInfo}
  {types : TypeTable}

namespace Makes

theorem settle (h : scene.Makes ctx s n s') (hsettles : s'.Settles s'') : scene.Makes ctx s n s'' :=
  { h with toSupplies := h.toSupplies.settle hsettles }

theorem of_parts (hinert : n.isInert) (hsupplies : s.Supplies scene s' n.demand)
    (hvoid : n.layout.isVoid) (hparts : ∀ c ∈ n.children, c.Formed scene ctx.around)
    (hshaped : n.IsShaped scene.functions) : scene.Makes ctx s n s' where
  toSupplies := hsupplies
  formed := .of_parts hinert hparts (Layout.isFaithful_of_isVoid hvoid) hshaped
  void := hvoid

end Makes

theorem sequence_of_void (h : ∀ n ∈ nodes, n.layout.isVoid) {rest : List Layout}
    (hrest : l.Sequence rest) : l.Sequence (nodes.map Node.layout ++ rest) :=
  .append (by simpa using h) hrest

/-- Statements and a last one. -/
theorem formed_seq {around : List Nat} (hnodes : ∀ k ∈ nodes, k.Formed scene around ∧ k.layout.isVoid)
    (hn : n.Formed scene around) (hvoid : Layout.unit.Sequence [n.layout]) :
    (Node.seq ⟨pos, .unit⟩ (nodes ++ [n])).Formed scene around := by
  refine .of_parts rfl ?_ rfl ?_
  · simp only [Node.children, List.forall_mem_append, List.forall_mem_singleton]
    exact ⟨fun k hk => (hnodes k hk).1, hn⟩
  · change Layout.unit.Sequence (List.map Node.layout (nodes ++ _))
    rw [List.map_append]
    exact sequence_of_void (fun k hk => (hnodes k hk).2) hvoid

theorem Stays.proceeds {x : Lower Node} (h : scene.Stays check names uses x) :
    scene.Proceeds check names uses names x :=
  fun _ _ hgoes => (h hgoes).mono (fun _ _ ⟨hmakes, hnames⟩ =>
    ⟨hmakes, hgoes.of_supplies hmakes.toSupplies hnames⟩)

theorem Stays.withTemporaries {x : Lower Node} (h : scene.Stays check names uses x) :
    scene.Stays check names uses (Lower.withTemporaries x) :=
  fun _ _ hgoes => Lower.does_withTemporaries (h hgoes)
    (fun _ _ _ ⟨hmakes, hnames⟩ hsettles hkept => ⟨hmakes.settle hsettles, hkept.trans hnames⟩)

theorem Proceeds.withTemporaries {x : Lower Node} (h : scene.Proceeds check names uses names' x) :
    scene.Proceeds check names uses names' (Lower.withTemporaries x) :=
  fun _ _ hgoes => Lower.does_withTemporaries (h hgoes)
    (fun _ _ _ ⟨hmakes, hgoes⟩ hsettles hkept =>
      ⟨hmakes.settle hsettles, hgoes.of_supplies ((Supplies.none _).settle hsettles) hkept⟩)

/-- What is done in a level of its own leaves the names as they are. -/
theorem Goes.does_inLevel {α : Type} {x : Lower α} {P : α → Prop} (demand : α → Demand)
    (hgoes : scene.Goes check names ctx s) (hframe : Steps Keeps x)
    (h : ∀ ⦃s₀⦄, scene.Goes check names ctx s₀ → scene.Goes check (Level.empty :: names) ctx s₀ →
      x.Does ctx s₀ uses (fun a s₁ => s₀.Supplies scene s₁ (demand a) ∧ P a)) :
    (Lower.inLevel x).Does ctx s uses (fun a s' => s.Takes scene s' (demand a) ∧ P a) := by
  have hopened : s.Settles s.opened := ⟨rfl, .refl _, rfl, rfl⟩
  have hadmits := hgoes.admits.of_grows hopened.grows
  have hinside := h { hgoes with toFollows := hgoes.toFollows.inner, admits := hadmits }
    { hgoes with toFollows := hgoes.toFollows.level, admits := hadmits }
  refine ((Lower.does_inLevel hinside).and_of (fun a s' hrun =>
    (Lower.steps_inLevel hframe ctx s a s' hrun).names)).mono ?_
  rintro a s' ⟨⟨s₁, ⟨hsupplies, ha⟩, hsettles, -⟩, hnames⟩
  have hfirst : s.Supplies scene _ .none := (Supplies.none s).settle hopened
  exact ⟨⟨(hfirst.append hsupplies).settle hsettles, hnames⟩, ha⟩

/-! ## Values as statements -/

theorem stays_discard (h : scene.Evaluates check names uses value) :
    scene.Stays check names uses (Lowering.discard pos value.value) := by
  intro ctx s hgoes
  refine (h hgoes).bind_last (fun x s₁ hx => .ite (fun hvoid => ?_) (fun _ => ?_))
  · exact .pure ⟨⟨hx.toSupplies, hx.formed, hvoid⟩, hx.names⟩
  · have hdrop {s₂ : LowerState} (htakes : s₁.Takes scene s₂ .none) :
        Lower.Does (pure (.drop ⟨pos, .unit⟩ x)) ctx s₂ []
          (fun n s' => scene.Makes ctx s n s' ∧ s'.names = s.names) := by
      have htakes : s.Takes scene s₂ (Node.drop ⟨pos, .unit⟩ x).demand := by
        simpa using hx.toTakes.append htakes
      exact .pure ⟨.of_parts rfl htakes.toSupplies rfl (by simpa using hx.formed) rfl, htakes.names⟩
    exact .ite (fun _ => (Lower.does_warn scene).bind_nil (fun _ _ h => hdrop h)) (fun _ => hdrop (.none s₁))

/-! ## Variables -/

mutual

theorem zero_spec (haddress : address.isFaithful) : (l : Layout) → {n : Node} → types.Has l →
    Layout.zero address pos l = .ok n → n.demand = .none ∧ n.Shaped functions
  | .void tag, _, _, h => nomatch h
  | .scalar tag kind, _, hl, h => by
    cases h
    have hconstant := Node.constant?_constant ⟨pos, .scalar tag kind⟩ ⟨0, .zero⟩
    exact ⟨Node.demand_of_constant? hconstant,
      Node.shaped_of_constant? hconstant (by rw [Node.layout_constant]; exact hl.isFaithful)⟩
  | .struct tag union size fields, n, hl, h => by
    rw [Layout.zero] at h
    split at h
    · cases h
    · split at h
      · cases h
      next values hvalues =>
        cases h
        obtain ⟨hdemand, hshaped⟩ := zeroFields_spec haddress fields hl.fields.2 hvalues
        exact ⟨hdemand, .intro hl.isFaithful trivial hshaped⟩
  | .array tag elem none size, n, _, h => by
    cases h
    have hconstant := Node.constant?_constant ⟨pos, address⟩ ⟨0, .zero⟩
    exact ⟨Node.demand_of_constant? hconstant,
      Node.shaped_of_constant? hconstant (by rw [Node.layout_constant]; exact haddress)⟩
  | .array tag elem (some count) size, n, hl, h => by
    rw [Layout.zero] at h
    split at h
    · cases h
      exact ⟨rfl, .intro hl.isFaithful trivial nofun⟩
    · split at h
      · cases h
      next value hvalue =>
        cases h
        obtain ⟨hdemand, hshaped⟩ := zero_spec haddress elem hl.element.1 hvalue
        refine ⟨?_, .intro hl.isFaithful trivial (fun c hc => List.eq_of_mem_replicate hc ▸ hshaped)⟩
        rw [Node.demand_arrayLit]
        induction count.toInt.toNat with
        | zero => rfl
        | succ k ih => rw [List.replicate_succ, Node.demandAll_cons, ih, hdemand]; rfl

theorem zeroFields_spec (haddress : address.isFaithful) : (fields : List (Field Layout)) →
    {nodes : List Node} → (∀ field ∈ fields, types.Has field.layout) →
    Layout.zeroFields address pos fields = .ok nodes →
    Node.demandAll nodes = .none ∧ ∀ n ∈ nodes, n.Shaped functions
  | [], _, _, h => by
    cases h
    exact ⟨rfl, nofun⟩
  | ⟨name, layout, offset, slot⟩ :: rest, nodes, hfields, h => by
    rw [List.forall_mem_cons] at hfields
    rw [Layout.zeroFields] at h
    split at h
    · cases h
    next value hvalue =>
      split at h
      · cases h
      next values hvalues =>
        cases h
        obtain ⟨hdemand, hshaped⟩ := zero_spec haddress layout hfields.1 hvalue
        obtain ⟨hrest, hall⟩ := zeroFields_spec haddress rest hfields.2 hvalues
        rw [Node.demandAll_cons, hdemand, hrest, List.forall_mem_cons]
        exact ⟨rfl, hshaped, hall⟩

end

theorem does_variable {value : Node} (hgoes : scene.Goes check names ctx s)
    (hl : scene.types.layout info.type = .ok l) (hname : names.lookupLocal name = none)
    (hvalue : s.Takes scene s' value.demand) (hformed : value.Formed scene ctx.around) :
    Lower.Does (do
      let held ← Lower.alloc info.pos l
      let storage : Node := .locals ⟨info.pos, l⟩ held.slots
      Lower.bind info.pos name (.variable storage)
      return .assign ⟨info.pos, .unit⟩ storage value) ctx s' []
      (fun n s'' => scene.Makes ctx s n s'' ∧
        scene.Goes check (names.define name ⟨info.type, false, info.pos⟩) ctx s'') := by
  refine (Lower.does_alloc scene).bind_nil (fun held s₁ halloc => ?_)
  have htakes := hvalue.append halloc
  have hgoes₁ := hgoes.of_takes htakes
  refine (Lower.does_bind (hgoes₁.unbound name hname)).bind_nil ?_
  rintro _ _ rfl
  have hfaithful := TypeTable.isFaithful_layout hl
  have hstorage : (Node.locals ⟨info.pos, l⟩ held.slots).Shaped scene.functions :=
    .intro hfaithful trivial nofun
  have hhouses : scene.Houses s₁ info.type (.locals ⟨info.pos, l⟩ held.slots) :=
    ⟨hl, rfl, ⟨rfl, rfl⟩, halloc.provided, hstorage⟩
  have hbound : s₁.Settles { s₁ with names := s₁.names.define name (.variable
      (.locals ⟨info.pos, l⟩ held.slots)) } := ⟨rfl, .refl _, rfl, rfl⟩
  refine .pure ⟨.of_parts rfl ?_ rfl ?_ trivial, ?_⟩
  · exact (htakes.toSupplies.within (Demand.within_comm _ _)).settle hbound
  · simpa using ⟨.of_free hstorage ⟨rfl, rfl⟩, hformed⟩
  · exact { hgoes₁ with
      toFollows := hgoes₁.toFollows.define name ⟨rfl, rfl, hhouses⟩
      admits := hgoes₁.admits.of_grows hbound.grows }

theorem proceeds_declare (hmissing : init.node.isMissing) (hname : names.lookupLocal name = none) :
    scene.Proceeds check names [] (names.define name ⟨info.type, false, info.pos⟩)
      (Lowering.varDecl info name init) := by
  intro ctx s hgoes
  refine does_layoutOf.bind_nil ?_
  rintro l s₁ ⟨hl, rfl⟩
  rw [hgoes.types] at hl
  rw [if_pos hmissing]
  refine .read (.bind_nil (does_ofResult (fun _ => isOrdinary_of_zero l)) ?_)
  rintro value s₂ ⟨hzero, rfl⟩
  obtain ⟨hdemand, hshaped⟩ : value.demand = .none ∧ value.Shaped scene.functions :=
    zero_spec hgoes.admits.faithful l ⟨_, hl⟩ hzero
  refine does_variable hgoes hl hname (hdemand ▸ .none s₂) (.of_free hshaped ?_)
  rw [hdemand]
  exact ⟨rfl, rfl⟩

theorem proceeds_declareAs (hmissing : init.node.isMissing = false)
    (hinit : scene.Evaluates check names uses init) (hname : names.lookupLocal name = none) :
    scene.Proceeds check names uses (names.define name ⟨info.type, false, info.pos⟩)
      (Lowering.varDecl info name init) := by
  intro ctx s hgoes
  refine does_layoutOf.bind_nil ?_
  rintro l s₁ ⟨hl, rfl⟩
  rw [hgoes.types] at hl
  rw [if_neg (by simp [hmissing])]
  exact (hinit hgoes).bind_last (fun value s₂ hvalue =>
    does_variable hgoes hl hname hvalue.toTakes hvalue.formed)

/-! ## Assignments -/

theorem stays_assign (htarget : scene.Evaluates check names uses target)
    (hvalue : scene.Evaluates check names uses' value) :
    scene.Stays check names (uses ++ uses') (Lowering.assign info .assign target value) := by
  intro ctx s hgoes
  refine htarget.two hvalue hgoes (fun x y s₁ s₂ hx hy => ?_)
  have htakes := hx.toTakes.append hy.toTakes
  refine .pure ⟨.of_parts rfl htakes.toSupplies rfl ?_ trivial, htakes.names⟩
  simpa using ⟨hx.formed, hy.formed⟩

/-- A target that is read and assigned is as it was, up to a temporary for its address. -/
structure Steadies (scene : Scene) (ctx : LowerContext) (s s' : LowerState) (n m : Node)
    (prelude : List Node) : Prop where
  takes : ∃ d, s.Takes scene s' d ∧ (Node.demandAll prelude ++ m.demand).Within (n.demand ++ d)
  free : m.demand.Free
  layout : m.layout = n.layout
  formed : m.Formed scene ctx.around
  prelude : ∀ k ∈ prelude, k.Formed scene ctx.around ∧ k.layout.isVoid

theorem does_steadyTarget (hplace : n.isPlace) (hn : n.Formed scene ctx.around) :
    (Lowering.steadyTarget pos n).Does ctx s []
      (fun (m, prelude) s' => scene.Steadies ctx s s' n m prelude) := by
  have hkept (hfree : n.demand.Free) : Lower.Does (pure (n, [])) ctx s []
      (fun (m, prelude) s' => scene.Steadies ctx s s' n m prelude) :=
    .pure ⟨⟨.none, .none s, by simpa using Demand.Within.refl _⟩, hfree, rfl, hn, nofun⟩
  cases n with
  | locals info slots => exact hkept ⟨rfl, rfl⟩
  | data info addr offset =>
    refine .ite (fun hstable => hkept ?_) (fun _ => ?_)
    · cases addr with
      | const32 | locals => exact ⟨rfl, rfl⟩
      | _ => cases hstable
    · refine (does_temporary scene).bind_nil ?_
      rintro _ s₁ ⟨htakes, slots, rfl⟩
      have haddr : addr.Formed scene ctx.around := hn.child rfl (.head _)
      have hslots : (Node.locals ⟨pos, addr.layout⟩ slots).Formed scene ctx.around :=
        .of_parts rfl nofun haddr.shaped.isFaithful trivial
      refine .pure ⟨⟨_, htakes, ?_⟩, ⟨rfl, rfl⟩, rfl, .of_parts rfl ?_ hn.shaped.isFaithful trivial, ?_⟩
      · simp only [Node.demandAll_cons, Node.demandAll_nil, Node.demand_assign, Node.demand_data,
          Node.demand_locals, Demand.append_none]
        grind
      · simpa using hslots
      · rw [List.forall_mem_singleton]
        exact ⟨.of_parts rfl (by simp [hslots, haddr]) rfl trivial, rfl⟩
  | _ => cases hplace

/-- A place is assigned a value computed from its old one. -/
theorem stays_update {op : Operator} {arith : Arith} {t : Ty} (hop : op.underlying? = some arith)
    (htarget : scene.Evaluates check names uses target)
    (hvalue : scene.Evaluates check names uses' value) (hplace : target.node.isPlace)
    (hresult : Typing.resultOf (.arith arith) target.node.type.unwrap value.node.type.unwrap = some t) :
    scene.Stays check names (uses ++ uses') (Lowering.assign info op target value) := by
  intro ctx s hgoes
  refine htarget.two hvalue hgoes (fun x y s₁ s₂ hx hy => ?_)
  have hassign : op ≠ .assign := by
    rintro rfl
    cases hop
  rw [if_neg hassign, hop]
  refine (does_steadyTarget (hx.place hplace) hx.formed).bind_nil ?_
  rintro ⟨m, prelude⟩ s₃ hsteadies
  obtain ⟨d, hd, hwithin⟩ := hsteadies.takes
  -- What is read is the steady target, a second time, and the value.
  have hfinish {result : Node} (hdemand : result.demand = m.demand ++ y.demand)
      (hresult : result.Formed scene ctx.around) :
      Lower.Does (pure (.seq ⟨info.pos, .unit⟩ (prelude ++ [.assign ⟨info.pos, .unit⟩ m result])))
        ctx s₃ [] (fun n s' => scene.Makes ctx s n s' ∧ s'.names = s.names) := by
    have htakes := (hx.toTakes.append hy.toTakes).append hd
    have hlast : (Node.assign ⟨info.pos, .unit⟩ m result).Formed scene ctx.around :=
      .of_parts rfl (by simp [hsteadies.formed, hresult]) rfl trivial
    refine .pure ⟨⟨htakes.toSupplies.within ?_, formed_seq hsteadies.prelude hlast (.refl _), rfl⟩, htakes.names⟩
    simp only [Node.demand_seq, Node.demandAll_append, Node.demandAll_cons, Node.demandAll_nil,
      Node.demand_assign, Demand.append_none, hdemand]
    have hfree := hsteadies.free
    grind
  cases hpointer : target.node.type.isPointer with
  | true =>
    obtain ⟨occurrence, elem, htype⟩ := Ty.exists_of_isPointer hpointer
    simp only [htype]
    refine does_stride.bind_nil ?_
    rintro size _ ⟨rfl⟩
    obtain ⟨hindex, hdemand⟩ := offsetIndex_spec hy.formed
    refine hfinish ?_ (formed_offsetBy hsteadies.formed hindex)
    simp [Node.offsetBy, hdemand]
  | false =>
    have hreturn : Lower.Does (pure (.seq ⟨info.pos, .unit⟩ (prelude ++ [.assign ⟨info.pos, .unit⟩ m
        (.binary ⟨info.pos, m.layout⟩ (.arith arith) m y)]))) ctx s₃ []
        (fun n s' => scene.Makes ctx s n s' ∧ s'.names = s.names) := by
      have hunwrap : target.node.type.unwrap.isPointer = false := by rwa [Ty.isPointer_unwrap]
      obtain ⟨hsame, -, kind, hkind, -⟩ := Typing.arith?_of_resultOf hunwrap hresult
      refine hfinish rfl (.of_parts rfl (by simp [hsteadies.formed, hy.formed])
        hsteadies.formed.shaped.isFaithful ⟨.refl _, ?_⟩)
      obtain ⟨lx, hlx, hsimilar⟩ := hx.type
      rw [hsteadies.layout]
      exact (hy.similar_of_takes hsame hlx).alike.trans hsimilar.alike.symm
    cases htype : target.node.type.unwrap with
    | pointer => simp [Ty.isPointer, htype] at hpointer
    | _ =>
      simp only
      exact hreturn

/-! ## Loops and jumps -/

/-- A jump leads to a label around it, which there is whenever the check allows the jump. -/
theorem stays_jump {keyword : String} {target : LowerContext → Option Nat}
    (htarget : ∀ ⦃ctx s⦄, scene.Goes check names ctx s →
      ∃ label, target ctx = some label ∧ label ∈ ctx.around ∧ label < s.labels.counts.length) :
    scene.Stays check names [] (Lowering.jump info keyword target) := by
  intro ctx s hgoes
  refine .read ?_
  obtain ⟨label, hlabel, haround, hcount⟩ := htarget hgoes
  rw [hlabel]
  refine (Lower.does_branch scene hcount).mono ?_
  rintro _ s₁ ⟨rfl, htakes⟩
  refine ⟨⟨htakes.toSupplies, ⟨.intro ?_ nofun, .intro rfl trivial nofun⟩, rfl⟩, htakes.names⟩
  simpa [Node.ownTargets] using haround

theorem stays_break (h : check.inBreakable) :
    scene.Stays check names [] (Lowering.jump info "break" LowerContext.breakTo) := by
  refine stays_jump (fun ctx s hgoes => ?_)
  obtain ⟨label, hlabel⟩ := Option.isSome_iff_exists.mp (hgoes.breaks h)
  exact ⟨label, hlabel, by simp [LowerContext.around, hlabel], hgoes.admits.breakTo label hlabel⟩

theorem stays_continue (h : check.inLoop) :
    scene.Stays check names [] (Lowering.jump info "continue" LowerContext.continueTo) := by
  refine stays_jump (fun ctx s hgoes => ?_)
  obtain ⟨label, hlabel⟩ := Option.isSome_iff_exists.mp (hgoes.continues h)
  exact ⟨label, hlabel, by simp [LowerContext.around, hlabel], hgoes.admits.continueTo label hlabel⟩

theorem stays_leave (hmissing : value.node.isMissing) (hfunction : check.function.isSome) :
    scene.Stays check names [] (Lowering.ret info value) := by
  intro ctx s hgoes
  refine .read ?_
  rw [hgoes.returns hfunction, if_neg (by simp), if_pos hmissing]
  exact .pure ⟨⟨.none s, ⟨.intro nofun nofun, .intro rfl trivial nofun⟩, rfl⟩, rfl⟩

theorem stays_ret (hmissing : value.node.isMissing = false) (hfunction : check.function.isSome)
    (hvalue : scene.Evaluates check names uses value) :
    scene.Stays check names uses (Lowering.ret info value) := by
  intro ctx s hgoes
  refine .read ?_
  rw [hgoes.returns hfunction, if_neg (by simp)]
  rw [if_neg (by simp [hmissing])]
  refine (hvalue hgoes).bind_last (fun x s₁ hx => .pure ⟨.of_parts rfl hx.toSupplies rfl ?_ trivial, hx.names⟩)
  rw [Node.children_ret]
  split
  · nofun
  · simpa using hx.formed

theorem Brings.alike_truth (h : scene.Brings ctx s tree n s') (hbool : tree.type.isBuiltin .bool) :
    n.layout.Alike .truth := by
  have hkind := h.scalar?_eq.trans (Ty.isBuiltin_bool_iff.mp hbool)
  refine Layout.alike_of_scalar?_eq ?_ hkind
  rw [Layout.isScalar, hkind]
  rfl

theorem does_loopBody (hframe : body.AllComposed False)
    (hbody : scene.Proceeds { check with inLoop := true, inBreakable := true } names uses names'
      body.statement) (hgoes : scene.Goes check names ctx s)
    (hexit : exit < s.labels.counts.length) (hagain : again < s.labels.counts.length) :
    (Lowering.loopBody body exit again).Does ctx s uses (fun n s' =>
      s.Takes scene s' n.demand ∧ n.Formed scene [exit, again] ∧ n.layout.isVoid) := by
  refine .withReader ?_
  have hinside : scene.Goes { check with inLoop := true, inBreakable := true } names
      { ctx with breakTo := some exit, continueTo := some again } s :=
    { toFollows := hgoes.toFollows
      admits := { hgoes.admits with
        breakTo := fun _ h => Option.some.inj h ▸ hexit
        continueTo := fun _ h => Option.some.inj h ▸ hagain }
      breaks := fun _ => rfl
      continues := fun _ => rfl
      returns := hgoes.returns }
  refine hinside.does_inLevel Node.demand hframe.statement.keeps (fun s₀ hgoes₀ _ => ?_)
  exact (hbody hgoes₀).mono (fun n s₁ ⟨hmakes, _⟩ => ⟨hmakes.toSupplies, hmakes.formed, hmakes.void⟩)

theorem does_loopAround {around : List Nat} (hagain : again < s.labels.counts.length)
    (hnodes : ∀ n ∈ nodes, n.Formed scene (again :: exit :: around) ∧ n.layout.isVoid) :
    (Lowering.loopAround ⟨pos, .unit⟩ exit again nodes).Does ctx s [] (fun n s' =>
      s.Takes scene s' (.branches [again]) ∧
        n.demand = .label exit ++ (.label again ++ (Node.demandAll nodes ++ .branches [again])) ∧
        n.Formed scene around ∧ n.layout.isVoid) := by
  refine (Lower.does_branch scene hagain).bind_nil ?_
  rintro _ s₁ ⟨rfl, htakes⟩
  refine .pure ⟨htakes, by simp, ?_, rfl⟩
  have hback : (Node.branch ⟨pos, .unit⟩ again).Formed scene (again :: exit :: around) :=
    ⟨.intro (by simp [Node.ownTargets]) nofun, .intro rfl trivial nofun⟩
  have hloop : (Node.loop ⟨pos, .unit⟩ (some again) (.seq ⟨pos, .unit⟩
      (nodes ++ [.branch ⟨pos, .unit⟩ again]))).Formed scene (exit :: around) :=
    .of_label rfl rfl (by simpa using formed_seq hnodes hback (.refl _)) rfl trivial
  exact .of_label rfl rfl (by simpa using hloop) rfl (.refl _)

theorem labels_lt (h : s.Takes scene s' (.label exit ++ .label again)) :
    exit < s'.labels.counts.length ∧ again < s'.labels.counts.length :=
  ⟨(h.fresh exit (by simp [Demand.label])).2, (h.fresh again (by simp [Demand.label])).2⟩

theorem stays_loop (hframe : body.AllComposed False)
    (hbody : scene.Proceeds { check with inLoop := true, inBreakable := true } names uses names'
      body.statement) : scene.Stays check names uses (Lowering.loop info body) := by
  intro ctx s hgoes
  refine (Lower.does_freshLabel scene).bind_nil (fun exit s₁ hexit => ?_)
  refine (Lower.does_freshLabel scene).bind_nil (fun again s₂ hagain => ?_)
  have hlabels := hexit.append hagain
  obtain ⟨hexit, hagain⟩ := labels_lt hlabels
  refine (does_loopBody hframe hbody (hgoes.of_takes hlabels) hexit hagain).bind_last ?_
  rintro b s₃ ⟨hb, hformed, hvoid⟩
  have hinner : ∀ k ∈ [b], k.Formed scene (again :: exit :: ctx.around) ∧ k.layout.isVoid := by
    rw [List.forall_mem_singleton]
    exact ⟨hformed.mono (by simp), hvoid⟩
  refine (does_loopAround (Nat.lt_of_lt_of_le hagain hb.grows.labels) hinner).mono ?_
  rintro n s₄ ⟨hback, hdemand, hnformed, hnvoid⟩
  have htakes := (hlabels.append hb).append hback
  refine ⟨⟨?_, hnformed, hnvoid⟩, htakes.names⟩
  simpa [hdemand, Demand.append_assoc] using htakes.toSupplies

theorem stays_whileLoop (hframe : body.AllComposed False)
    (hcond : scene.Evaluates check names uses cond) (hbool : cond.node.type.isBuiltin .bool)
    (hbody : scene.Proceeds { check with inLoop := true, inBreakable := true } names uses' names'
      body.statement) :
    scene.Stays check names (uses ++ uses') (Lowering.whileLoop info cond body) := by
  intro ctx s hgoes
  refine (Lower.does_freshLabel scene).bind_nil (fun exit s₁ hexit => ?_)
  refine (Lower.does_freshLabel scene).bind_nil (fun again s₂ hagain => ?_)
  have hlabels := hexit.append hagain
  obtain ⟨hexit, hagain⟩ := labels_lt hlabels
  have hgoes₂ := hgoes.of_takes hlabels
  refine (hcond hgoes₂).bind (fun c s₃ hc => ?_)
  have hexit₃ := Nat.lt_of_lt_of_le hexit hc.grows.labels
  have hagain₃ := Nat.lt_of_lt_of_le hagain hc.grows.labels
  refine (does_loopBody hframe hbody (hgoes₂.of_takes hc.toTakes) hexit₃ hagain₃).bind_last ?_
  rintro b s₄ ⟨hb, hformed, hvoid⟩
  refine (Lower.does_branchIf scene (Nat.lt_of_lt_of_le hexit₃ hb.grows.labels)).bind_nil ?_
  rintro _ s₅ ⟨rfl, hleave⟩
  have hnot : (Node.unary ⟨cond.node.pos, .truth⟩ .not c).Formed scene (again :: exit :: ctx.around) := by
    refine .of_parts rfl ?_ rfl (fun _ => hc.alike_truth hbool)
    simpa using hc.formed.mono (by simp)
  have hleaves : (Node.branchIf ⟨info.pos, .unit⟩ exit (.unary ⟨cond.node.pos, .truth⟩ .not c)).Formed
      scene (again :: exit :: ctx.around) := by
    refine ⟨.intro (by simp [Node.ownTargets]) ?_, .intro rfl rfl ?_⟩
    · simpa [Node.label?] using hnot.enclosed
    · simpa using hnot.shaped
  have hinner : ∀ k ∈ [.branchIf ⟨info.pos, .unit⟩ exit (.unary ⟨cond.node.pos, .truth⟩ .not c), b],
      k.Formed scene (again :: exit :: ctx.around) ∧ k.layout.isVoid := by
    simp only [List.forall_mem_cons, List.not_mem_nil, false_imp_iff, implies_true, and_true]
    exact ⟨⟨hleaves, rfl⟩, hformed.mono (by simp), hvoid⟩
  have hagain₅ := Nat.lt_of_lt_of_le hagain₃ (hb.append hleave).grows.labels
  refine (does_loopAround hagain₅ hinner).mono ?_
  rintro n s₆ ⟨hback, hdemand, hnformed, hnvoid⟩
  have htakes := (((hlabels.append hc.toTakes).append hb).append hleave).append hback
  refine ⟨⟨htakes.toSupplies.within ?_, hnformed, hnvoid⟩, htakes.names⟩
  -- The branch out of the loop was counted after the body, but comes before it.
  rw [hdemand]
  simp only [Node.demandAll_cons, Node.demandAll_nil, Node.demand_branchIf, Node.demand_unary]
  grind

/-! ## Blocks and conditionals -/

theorem MakesAll.nil (s : LowerState) : scene.MakesAll ctx s [] s := ⟨.none s, nofun, nofun⟩

theorem MakesAll.cons (h : scene.Makes ctx s n s') (hrest : scene.MakesAll ctx s' nodes s'') :
    scene.MakesAll ctx s (n :: nodes) s'' where
  toSupplies := h.toSupplies.append hrest.toSupplies
  formed := List.forall_mem_cons.mpr ⟨h.formed, hrest.formed⟩
  void := List.forall_mem_cons.mpr ⟨h.void, hrest.void⟩

theorem ProceedAll.concat {x : Lowering} (h : scene.ProceedAll check names uses xs inner)
    (hx : scene.Proceeds check inner uses' names' x.statement) :
    scene.ProceedAll check names (uses ++ uses') (xs ++ [x]) names' := by
  induction h with
  | nil =>
    rw [← List.append_nil ([] ++ uses')]
    exact .cons hx .nil
  | cons hfirst _ ih =>
    rw [List.append_assoc]
    exact .cons hfirst (ih hx)

section

variable (h : scene.ProceedAll check names uses xs names') (hgoes : scene.Goes check names ctx s)
include h hgoes

theorem ProceedAll.does_statements {afterJump : Bool} :
    (Lowering.statements afterJump xs).Does ctx s uses (fun nodes s' =>
      scene.MakesAll ctx s nodes s' ∧ scene.Goes check names' ctx s') := by
  induction h generalizing s afterJump with
  | nil => exact .pure ⟨.nil s, hgoes⟩
  | @cons names _ names'' uses uses' x rest hx _ ih =>
    have hstep {s₁ : LowerState} (htakes : s.Takes scene s₁ .none) : Lower.Does (do
        let n ← x.statement
        return n :: (← Lowering.statements (Lowering.isJump x.node) rest)) ctx s₁ (uses ++ uses')
        (fun nodes s' => scene.MakesAll ctx s nodes s' ∧ scene.Goes check names'' ctx s') := by
      refine (hx (hgoes.of_takes htakes)).bind ?_
      rintro n s₂ ⟨hmakes, hgoes₂⟩
      refine (ih hgoes₂).bind_last ?_
      rintro nodes s₃ ⟨hall, hgoes₃⟩
      refine .pure ⟨.cons { hmakes with toSupplies := ?_ } hall, hgoes₃⟩
      exact htakes.toSupplies.append hmakes.toSupplies
    exact .ite (fun _ => (Lower.does_warn scene).bind_nil (fun _ _ h => hstep h)) (fun _ => hstep (.none s))

theorem ProceedAll.does_mapM :
    (xs.mapM Lowering.statement).Does ctx s uses (fun nodes s' =>
      scene.MakesAll ctx s nodes s' ∧ scene.Goes check names' ctx s') := by
  induction h generalizing s with
  | nil => exact .pure ⟨.nil s, hgoes⟩
  | cons hx _ ih =>
    rw [List.mapM_cons]
    refine (hx hgoes).bind ?_
    rintro n s₁ ⟨hmakes, hgoes₁⟩
    refine (ih hgoes₁).bind_last ?_
    rintro nodes s₂ ⟨hall, hgoes₂⟩
    exact .pure ⟨.cons hmakes hall, hgoes₂⟩

end

theorem stays_blockStmt (hframes : ∀ x ∈ xs, x.AllComposed False)
    (h : scene.ProceedAll check (Level.empty :: names) uses xs inner) :
    scene.Stays check names uses (Lowering.blockStmt info xs) := by
  intro ctx s hgoes
  refine (hgoes.does_inLevel (P := fun nodes => (∀ n ∈ nodes, n.Formed scene ctx.around) ∧
    ∀ n ∈ nodes, n.layout.isVoid) Node.demandAll (Lowering.composed_statements false hframes).keeps ?_).map ?_
  · intro s₀ _ hgoes₀
    exact (h.does_statements hgoes₀).mono (fun nodes s₁ ⟨hall, _⟩ =>
      ⟨hall.toSupplies, hall.formed, hall.void⟩)
  · rintro nodes s₁ ⟨htakes, hformed, hvoid⟩
    have hsequence : Layout.unit.Sequence (nodes.map Node.layout ++ []) := sequence_of_void hvoid rfl
    rw [List.append_nil] at hsequence
    exact ⟨.of_parts rfl htakes.toSupplies rfl hformed hsequence, htakes.names⟩

section

variable (hcond : scene.Evaluates check names uses cond)
include hcond

/-- A conditional statement, whose alternative may be missing. What holds after its parts is up to
them. -/
theorem does_ifStmt {P Q : LowerState → Prop} (hgoes : scene.Goes check names ctx s)
    (hyes : ∀ ⦃s₁⦄, scene.Goes check names ctx s₁ → s₁.names = s.names →
      yes.statement.Does ctx s₁ uses' (fun y s₂ => scene.Makes ctx s₁ y s₂ ∧ P s₂))
    (hno : ∀ ⦃s₂⦄, P s₂ → (no.node.isMissing ∧ uses'' = [] ∧ Q s₂) ∨ (no.node.isMissing = false ∧
      no.statement.Does ctx s₂ uses'' (fun m s₃ => scene.Makes ctx s₂ m s₃ ∧ Q s₃))) :
    (Lowering.ifStmt info cond yes no).Does ctx s (uses ++ uses' ++ uses'')
      (fun n s' => scene.Makes ctx s n s' ∧ Q s') := by
  rw [List.append_assoc]
  refine (hcond hgoes).bind (fun c s₁ hc => ?_)
  have hbranches {s₂ : LowerState} (htakes : s₁.Takes scene s₂ .none) : Lower.Does (do
      let y ← yes.statement
      let n ← if no.node.isMissing then pure .absent else no.statement
      return .ifElse ⟨info.pos, .unit⟩ c y n) ctx s₂ (uses' ++ uses'')
      (fun n s' => scene.Makes ctx s n s' ∧ Q s') := by
    have htaken : s.Takes scene s₂ c.demand := by simpa using hc.toTakes.append htakes
    refine (hyes (hgoes.of_takes htaken) htaken.names).bind ?_
    rintro y s₃ ⟨hy, hP⟩
    have hsupplies := htaken.toSupplies.append hy.toSupplies
    have halike := Layout.alike_of_isVoid hy.void (rfl : Layout.unit.isVoid)
    obtain ⟨hmissing, rfl, hQ⟩ | ⟨hmissing, hno⟩ := hno hP
    · rw [if_pos hmissing]
      refine .pure ⟨.of_parts rfl (by simpa using hsupplies) rfl ?_ ⟨halike, .inl ⟨rfl, rfl⟩⟩, hQ⟩
      exact .of_choice hc.formed hy.formed nofun
    · rw [if_neg (by simp [hmissing])]
      refine hno.map ?_
      rintro m s₄ ⟨hm, hQ⟩
      refine ⟨.of_parts rfl ?_ rfl (.of_choice hc.formed hy.formed (fun _ => hm.formed))
        ⟨halike, .inr (Layout.alike_of_isVoid hm.void rfl)⟩, hQ⟩
      simpa [Demand.append_assoc] using hsupplies.append hm.toSupplies
  refine Lower.does_fold.bind_nil ?_
  rintro folded s₂ ⟨-, rfl⟩
  cases folded.constant? with
  | some value => exact (Lower.does_warn scene).bind_nil (fun _ _ h => hbranches h)
  | none => exact hbranches (.none _)

theorem stays_ifStmt (hyes : scene.Stays check names uses' yes.statement)
    (hmissing : no.node.isMissing = false) (hno : scene.Stays check names uses'' no.statement) :
    scene.Stays check names (uses ++ uses' ++ uses'') (Lowering.ifStmt info cond yes no) := by
  intro ctx s hgoes
  refine does_ifStmt (P := fun s₂ => scene.Goes check names ctx s₂ ∧ s₂.names = s.names) hcond hgoes
    (fun s₁ hgoes₁ hnames => ?_) (fun s₂ ⟨hgoes₂, hnames⟩ => .inr ⟨hmissing, ?_⟩)
  · exact (hyes hgoes₁).mono (fun y s₂ ⟨hy, hkept⟩ =>
      ⟨hy, hgoes₁.of_supplies hy.toSupplies hkept, hkept.trans hnames⟩)
  · exact (hno hgoes₂).mono (fun m s₃ ⟨hm, hkept⟩ => ⟨hm, hkept.trans hnames⟩)

theorem proceeds_ifStmt (hyes : scene.Proceeds check names uses' names' yes.statement)
    (hno : (no.node.isMissing ∧ uses'' = [] ∧ names'' = names') ∨ (no.node.isMissing = false ∧
      scene.Proceeds check names' uses'' names'' no.statement)) :
    scene.Proceeds check names (uses ++ uses' ++ uses'') names'' (Lowering.ifStmt info cond yes no) := by
  intro ctx s hgoes
  refine does_ifStmt hcond hgoes (fun s₁ hgoes₁ _ => hyes hgoes₁) (fun s₂ hgoes₂ => ?_)
  obtain ⟨hmissing, huses, rfl⟩ | ⟨hmissing, hno⟩ := hno
  · exact .inl ⟨hmissing, huses, hgoes₂⟩
  · exact .inr ⟨hmissing, hno hgoes₂⟩

end

/-- A node that is a value if its type has values, and a statement otherwise. -/
theorem evaluates_ofEither {statement : Lower Node} {value : Layout → Lower Node}
    (hplace : tree.isPlace = false) (hstatement : scene.Stays check names uses statement)
    (hform : ∀ ⦃ctx s n s'⦄, statement ctx s = (.ok n, s') → n.layout = .unit ∧ n.isLiteral = false)
    (hvalue : ∀ ⦃l ctx s⦄, scene.Goes check names ctx s → scene.types.layout tree.type = .ok l →
      (value l).Does ctx s uses (scene.Brings ctx s tree)) :
    scene.Evaluates check names uses (Lowering.ofEither tree statement value) := by
  intro ctx s hgoes
  refine does_layoutOf.bind_nil ?_
  rintro l s₁ ⟨hl, rfl⟩
  rw [hgoes.types] at hl
  refine .ite (fun hvoid => ?_) (fun _ => hvalue hgoes hl)
  have hforms (n : Node) (s' : LowerState)
      (hrun : Lower.withTemporaries statement ctx s₁ = (.ok n, s')) :
      n.layout = .unit ∧ n.isLiteral = false := by
    obtain ⟨s₂, hx, -⟩ := Lower.withTemporaries_eq_ok hrun
    exact hform hx
  refine ((hstatement.withTemporaries hgoes).and_of hforms).mono ?_
  rintro n s₂ ⟨⟨hmakes, hnames⟩, hunit, hliteral⟩
  exact {
    toTakes := ⟨hmakes.toSupplies, hnames⟩
    formed := hmakes.formed
    type := ⟨l, hl, Layout.similar_of_isVoid hmakes.void hvoid⟩
    known := hunit ▸ scene.types.has_unit
    whole := .plain hliteral
    place := fun h => absurd h (by simp [Lowering.ofEither, hplace]) }

theorem does_ifValue {p q r : Tree} (hcond : scene.Evaluates check names uses cond)
    (hyes : scene.Evaluates check names uses' yes) (hno : scene.Evaluates check names uses'' no)
    (hyesTakes : info.type.takes yes.node.type) (hnoTakes : info.type.takes no.node.type)
    (hgoes : scene.Goes check names ctx s) (hl : scene.types.layout info.type = .ok l) :
    (Lowering.ifValue info cond yes no l).Does ctx s (uses ++ uses' ++ uses'')
      (scene.Brings ctx s (.ifElse info p q r)) := by
  rw [List.append_assoc]
  refine Lower.does_requireMultiValue.bind_nil ?_
  rintro _ s₁ ⟨-, rfl⟩
  refine (hcond hgoes).bind (fun c s₂ hc => ?_)
  refine hyes.two hno (hgoes.of_takes hc.toTakes) (fun y m s₃ s₄ hy hm => ?_)
  have htakes := hc.toTakes.append (hy.toTakes.append hm.toTakes)
  exact .pure (.of_parts rfl htakes (.of_choice hc.formed hy.formed (fun _ => hm.formed))
    ⟨(hy.similar_of_takes hyesTakes hl).alike, .inr (hm.similar_of_takes hnoTakes hl).alike⟩ hl rfl rfl)

theorem does_blockValue {init : List Lowering} {last : Lowering} {trees : List Tree}
    (hframes : ∀ x ∈ init ++ [last], x.AllComposed False)
    (hinit : scene.ProceedAll check (Level.empty :: names) uses init inner)
    (hlast : scene.Evaluates check inner uses' last) (htakes : info.type.takes last.node.type)
    (hgoes : scene.Goes check names ctx s) (hl : scene.types.layout info.type = .ok l) :
    (Lowering.blockValue info (init ++ [last]) l).Does ctx s (uses ++ uses')
      (scene.Brings ctx s (.block info trees)) := by
  unfold Lowering.blockValue
  rw [List.getLast?_concat, List.dropLast_concat]
  have hframe : Steps Keeps (do
      let children ← init.mapM Lowering.statement
      return children ++ [← last.value]) := by
    have hstatements := Steps.mapM init (fun x hx => (hframes x (List.mem_append_left [last] hx)).statement.keeps)
    have hlast := (hframes last (List.mem_append_right init (.head _))).value.keeps
    exact hstatements.bind (fun _ => hlast.bind (fun _ => .pure))
  refine (hgoes.does_inLevel (P := fun nodes => (∀ n ∈ nodes, n.Formed scene ctx.around) ∧
    l.Sequence (nodes.map Node.layout)) Node.demandAll hframe ?_).map ?_
  · intro s₀ _ hgoes₀
    refine (hinit.does_mapM hgoes₀).bind ?_
    rintro nodes s₁ ⟨hall, hgoes₁⟩
    refine (hlast hgoes₁).map (fun v s₂ hv => ⟨?_, ?_, ?_⟩)
    · simpa using hall.toSupplies.append hv.toSupplies
    · rw [List.forall_mem_append, List.forall_mem_singleton]
      exact ⟨hall.formed, hv.formed⟩
    · rw [List.map_append]
      exact sequence_of_void hall.void (hv.similar_of_takes htakes hl).alike
  · rintro nodes s₁ ⟨htakes, hformed, hsequence⟩
    exact .of_parts rfl htakes hformed hsequence hl rfl rfl

end Scene

end TreeWasm
