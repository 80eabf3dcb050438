import TreeWasm.Proofs.Building.Values

/-! # Building parts of values

A field or an element is picked from a place or from a literal, where no code for the whole is needed;
any other value is kept in slots first. What is picked asks for no more than the whole and its index.
-/

namespace TreeWasm

open Wasm
open TypeTable (layout_unwrap isFaithful_layout)

variable {others : List Node} {tag : TypeTag} {size : Int64} {fields : List (Field Layout)}

theorem Demand.within_of_mem {n : Node} {nodes : List Node} (h : n ∈ nodes) :
    n.demand.Within (Node.demandAll nodes) := by
  induction nodes with
  | nil => cases h
  | cons first rest ih =>
    rw [Node.demandAll_cons]
    rcases List.mem_cons.mp h with rfl | h
    · exact within_append_left
    · exact (ih h).trans (within_append_right _ _)

namespace Node

/-- A part of a node, picked with the help of some other nodes. -/
structure IsPart (scene : Scene) (base : Node) (others : List Node) (part : Node) : Prop where
  /-- The part asks for no more than the whole and what helps to pick it, or is in slots that are
  there whenever those of the whole are. -/
  demand : part.demand.Within (base.demand ++ demandAll others) ∨
    (part.demand.Free ∧ ∀ s : LowerState, (∀ need ∈ base.needs, s.Provides scene need) →
      ∀ need ∈ part.needs, s.Provides scene need)
  formed : ∀ around, base.Formed scene around → (∀ n ∈ others, n.Formed scene around) →
    part.Formed scene around
  known : scene.types.Has part.layout
  whole : part.Whole scene.types
  place : base.isPlace → part.isPlace

variable {scene : Scene} {base part : Node}

theorem IsPart.mono {others' : List Node} (h : IsPart scene base others part)
    (hdemand : (demandAll others).Within (demandAll others'))
    (hformed : ∀ around, (∀ n ∈ others', n.Formed scene around) → ∀ n ∈ others, n.Formed scene around) :
    IsPart scene base others' part :=
  { h with
    demand := h.demand.imp_left (fun hwithin => hwithin.trans ((Demand.Within.refl _).append hdemand))
    formed := fun around hbase hothers => h.formed around hbase (hformed around hothers) }

theorem isPart_of_mem (h : part ∈ base.children) (hdemand : base.demand = demandAll base.children)
    (hplain : base.isPlace = false) (hlabel : base.label? = none) (hknown : scene.types.Has part.layout)
    (hwhole : part.Whole scene.types) : IsPart scene base others part where
  demand := by
    rw [hdemand]
    exact .inl ((Demand.within_of_mem h).trans Demand.within_append_left)
  formed := fun _ hbase _ => hbase.child hlabel h
  known := hknown
  whole := hwhole
  place := by simp [hplain]

/-! ## Fields -/

theorem isPart_of_select {name : String} {union : Bool} (h : base.select name = .ok part)
    (hlayout : base.layout = .struct tag union size fields) (hknown : scene.types.Has base.layout)
    (hwhole : base.Whole scene.types) :
    ∃ field, fields.find? (fun field => field.name == name) = some field ∧
      part.layout.Similar field.layout ∧ IsPart scene base [] part := by
  unfold select at h
  split at h
  next index hindex =>
    have hindex : fields.findIdx? (fun field => field.name == name) = some index := by
      rw [hlayout] at hindex
      exact hindex
    obtain ⟨field, hfield, hfind⟩ := find?_eq_of_findIdx? hindex
    have hmem := List.mem_of_getElem? hfield
    obtain ⟨found, hfound, h⟩ := Except.exists_of_bind h
    have hfound := Except.ok_of_mapError hfound
    rw [hlayout, Layout.selectIndex_struct hfield] at hfound
    cases hfound
    rw [hlayout] at hknown
    obtain ⟨hslots, hfields⟩ := hknown.fields
    have hfaithful := (hfields field hmem).isFaithful
    refine ⟨field, hfind, ?_⟩
    cases base with
    | data info addr offset =>
      cases h
      refine ⟨.refl _, .inl ?_, fun around hbase _ => ?_, hfields field hmem, .plain rfl, fun _ => rfl⟩
      · exact Demand.within_append_left
      · exact .of_parts rfl (fun c hc => hbase.child rfl hc) hfaithful trivial
    | locals info slots =>
      obtain ⟨kinds, hkinds, h⟩ := Except.exists_of_bind h
      cases h
      obtain ⟨hok, rfl⟩ := Layout.slots_of_flatten (Except.ok_of_mapError hkinds)
      refine ⟨.refl _, .inr ⟨⟨rfl, rfl⟩, fun s hs => ?_⟩, fun around _ _ => ?_, hfields field hmem,
        .plain rfl, fun _ => rfl⟩
      · intro need hneed
        obtain rfl := List.mem_singleton.mp hneed
        obtain ⟨hbase, hheld⟩ := hs _ (List.mem_singleton_self _)
        rw [show info.layout = _ from hlayout] at hbase hheld
        -- A union has no slots.
        cases union with
        | true => cases hbase
        | false =>
          obtain ⟨hplaced, hall⟩ := hslots rfl
          exact ⟨hok, map_slots_field hheld hplaced hall hfield⟩
      · exact .of_parts rfl nofun hfaithful trivial
    | structLit info nodes =>
      cases hwhole with
      | plain hplain => cases hplain
      | structLit hstruct hparts hhas hall =>
        cases hstruct.symm.trans hlayout
        obtain ⟨node, hnode, hsimilar⟩ := exists_of_forall₂ hparts.flip hfield
        have hpart : (nodes[(index : Int).toNat]?).getD absent = node := by
          rw [Int.toNat_natCast, hnode]
          rfl
        cases h
        rw [hpart]
        have hmem := List.mem_of_getElem? hnode
        exact ⟨hsimilar, isPart_of_mem hmem rfl rfl rfl (hhas node hmem) (hall node hmem)⟩
    | _ => cases h
  · cases h

/-! ## Elements -/

theorem isPart_of_index {idx : Node} {elem : Layout} {count : Option Int64} (h : base.index idx = .ok part)
    (hlayout : base.layout = .array tag elem count size) (hknown : scene.types.Has base.layout)
    (hwhole : base.Whole scene.types) :
    part.layout.Similar elem ∧ IsPart scene base [idx] part := by
  obtain ⟨found, hfound, h⟩ := Except.exists_of_bind h
  have hfound := Except.ok_of_mapError hfound
  rw [hlayout] at hfound
  cases hfound
  rw [hlayout] at hknown
  have helem := hknown.element.1
  cases base with
  | data info addr offset =>
    cases h
    refine ⟨.refl _, .inl ?_, fun around hbase hidx => ?_, helem, .plain rfl, fun _ => rfl⟩
    · simp only [offsetBy, demand_data, demand_scaledOffset, demandAll_cons, demandAll_nil,
        Demand.append_none, Demand.append_assoc]
      exact .refl _
    · refine .of_parts rfl ?_ helem.isFaithful trivial
      have haddr := hbase.child rfl (.head _)
      simpa using Scene.formed_offsetBy haddr (hidx idx (.head _))
  | locals info slots =>
    obtain ⟨i, hi, h⟩ := Except.exists_of_bind h
    obtain ⟨kinds, hkinds, h⟩ := Except.exists_of_bind h
    cases h
    obtain ⟨-, rfl⟩ := Layout.slots_of_flatten (Except.ok_of_mapError hkinds)
    obtain ⟨bound, rfl, hbound⟩ := constantIndex_eq_ok hi hlayout
    refine ⟨.refl _, .inr ⟨⟨rfl, rfl⟩, fun s hs => ?_⟩, fun around _ _ => ?_, helem, .plain rfl, fun _ => rfl⟩
    · intro need hneed
      obtain rfl := List.mem_singleton.mp hneed
      obtain ⟨hbase, hheld⟩ := hs _ (List.mem_singleton_self _)
      rw [show info.layout = _ from hlayout] at hbase hheld
      exact map_slots_element hbase hheld hbound
    · exact .of_parts rfl (by rintro _ ⟨⟩) helem.isFaithful trivial
  | arrayLit info nodes =>
    obtain ⟨i, hi, h⟩ := Except.exists_of_bind h
    cases hwhole with
    | plain hplain => cases hplain
    | arrayLit harray hlen hparts hhas hall =>
      cases harray.symm.trans hlayout
      obtain ⟨bound, rfl, hbound⟩ := constantIndex_eq_ok hi hlayout
      have hi : i < nodes.length := by
        have := hlen bound rfl
        omega
      have hpart : (nodes[i]?).getD absent = nodes[i] := by
        rw [List.getElem?_eq_getElem hi]
        rfl
      cases h
      rw [hpart]
      have hmem := List.getElem_mem hi
      exact ⟨hparts _ hmem, isPart_of_mem hmem rfl rfl rfl (hhas _ hmem) (hall _ hmem)⟩
  | _ => cases h

end Node

namespace Scene

open LowerState (Takes)
open Lower (does_layoutOf does_ofResult does_temporary)

variable {scene : Scene} {check : CheckContext} {names : Chain TypedName}
  {uses uses' : List Resolution} {ctx : LowerContext} {s s' s'' : LowerState} {tree : Tree}
  {n m k part : Node} {others prelude : List Node} {l : Layout} {array index value : Lowering}
  {occurrence : Nat} {idx : Node} {length : Option Int64} {pos : Position} {name : String}
  {p q : Tree} {info : TreeInfo} {elem field t : Ty}

/-! ## Picking a part -/

/-- A node to pick parts from: the value itself, or slots that it is assigned to before. -/
structure Selects (scene : Scene) (s s' : LowerState) (n : Node) (others : List Node) (m : Node)
    (prelude : List Node) : Prop where
  layout : m.layout = n.layout
  whole : m.Whole scene.types
  kept : (m = n ∧ prelude = [] ∧ s.Takes scene s' (n.demand ++ Node.demandAll others)) ∨
    (∃ slots, m = .locals ⟨n.pos, n.layout⟩ slots ∧ prelude = [.assign ⟨n.pos, .unit⟩ m n] ∧
      n.isPlace = false ∧ s.Takes scene s' (n.demand ++ Node.demandAll others ++ m.demand))

theorem does_selectable (htakes : s.Takes scene s' (n.demand ++ Node.demandAll others))
    (hwhole : n.Whole scene.types) :
    (Lowering.selectable n).Does ctx s' []
      (fun (m, prelude) s'' => scene.Selects s s'' n others m prelude) := by
  have hkept : Lower.Does (pure (n, [])) ctx s' []
      (fun (m, prelude) s'' => scene.Selects s s'' n others m prelude) :=
    .pure ⟨rfl, hwhole, .inl ⟨rfl, rfl, htakes⟩⟩
  have htemporary (hplace : n.isPlace = false) :
      Lower.Does (do
        let temporary ← Lower.temporary n.pos n.layout
        return (temporary, [.assign ⟨n.pos, .unit⟩ temporary n])) ctx s' []
        (fun (m, prelude) s'' => scene.Selects s s'' n others m prelude) := by
    refine (does_temporary scene).bind_nil ?_
    rintro _ s₂ ⟨htaken, slots, rfl⟩
    refine .pure ⟨rfl, .plain rfl, .inr ⟨slots, rfl, rfl, hplace, ?_⟩⟩
    exact htakes.append htaken
  cases n with
  | data | locals => exact hkept
  | structLit | arrayLit => exact .ite (fun _ => hkept) (fun _ => htemporary rfl)
  | _ => exact htemporary rfl

/-- A part that was picked stands for the expression that asks for it. -/
theorem does_after (hselects : scene.Selects s s' n others m prelude)
    (hn : n.Formed scene ctx.around) (hothers : ∀ k ∈ others, k.Formed scene ctx.around)
    (hpart : m.IsPart scene others part) (hl : scene.types.layout t = .ok l)
    (hsimilar : part.layout.Similar l) (htype : tree.type.unwrap = t.unwrap)
    (hplace : tree.isPlace → n.isPlace) :
    Lower.Does (do return Lowering.after pos prelude (← Lower.ofResult (part.reference pos)))
      ctx s' [] (scene.Brings ctx s tree) := by
  refine (does_ofResult (fun _ => Node.isOrdinary_of_reference)).bind_nil ?_
  rintro k s'' ⟨hk, rfl⟩
  obtain ⟨hlayout, hkplace⟩ := Node.reference_eq_ok hk
  obtain ⟨hdemand, hformed, hwhole⟩ := Node.reference_spec hk
  have htree : scene.types.layout tree.type = .ok l := by
    rw [← layout_unwrap, htype, layout_unwrap]
    exact hl
  refine .pure ?_
  obtain ⟨rfl, rfl, htakes⟩ | ⟨slots, rfl, rfl, hnplace, htakes⟩ := hselects.kept
  · refine {
      toTakes := ?_
      formed := hformed _ _ (hpart.formed _ hn hothers)
      type := ⟨l, htree, hlayout ▸ hsimilar⟩
      known := hlayout ▸ hpart.known
      whole := hwhole _ hpart.whole
      place := fun htree => hkplace.trans (hpart.place (hplace htree)) }
    change s.Takes scene s'' k.demand
    rw [hdemand]
    obtain hwithin | ⟨hfree, hprovided⟩ := hpart.demand
    · exact htakes.within hwithin
    · refine (htakes.append (.still hfree (hprovided s'' ?_))).within (Demand.within_append_right _ _)
      intro need hneed
      exact htakes.provided need (List.mem_append_left _ hneed)
  · have hslots : (Node.locals ⟨n.pos, n.layout⟩ slots).Formed scene ctx.around :=
      .of_parts rfl nofun hn.shaped.isFaithful trivial
    have hassign : (Node.assign ⟨n.pos, .unit⟩ (.locals ⟨n.pos, n.layout⟩ slots) n).Formed scene ctx.around :=
      .of_parts rfl (by simp [hslots, hn]) rfl trivial
    have hkformed := hformed _ _ (hpart.formed _ hslots hothers)
    refine {
      toTakes := ?_
      formed := .of_parts rfl (by simp [Lowering.after, hassign, hkformed])
        hkformed.shaped.isFaithful ⟨rfl, .refl _⟩
      type := ⟨l, htree, hlayout ▸ hsimilar⟩
      known := hlayout ▸ hpart.known
      whole := .plain rfl
      place := fun htree => absurd (hplace htree) (by simp [hnplace]) }
    rw [Lowering.after, if_neg (by simp), List.singleton_append, Node.demand_seq, Node.demandAll_cons,
      Node.demandAll_cons, Node.demandAll_nil, Demand.append_none, Node.demand_assign, hdemand]
    obtain hwithin | ⟨hfree, hprovided⟩ := hpart.demand
    · exact htakes.within (((Demand.Within.refl _).append hwithin).trans (by rw [Node.demand_locals]; grind))
    · refine (htakes.within (by rw [Node.demand_locals]; grind)).append (.still hfree (hprovided s'' ?_))
      exact fun need hneed => htakes.provided need (List.mem_append_right _ hneed)

/-! ## Places -/

theorem Brings.data {offset : Int64} (htakes : s.Takes scene s' (.ofNeeds [.memory] ++ n.demand))
    (hn : n.Formed scene ctx.around) (hl : scene.types.layout tree.type = .ok l) :
    scene.Brings ctx s tree (.data ⟨pos, l⟩ n offset) s' where
  toTakes := htakes
  formed := .of_parts rfl (by simpa using hn) (isFaithful_layout hl) trivial
  type := ⟨l, hl, .refl l⟩
  known := ⟨tree.type, hl⟩
  whole := .plain rfl
  place := fun _ => rfl

theorem evaluates_deref {pointer : Lowering} (h : scene.Evaluates check names uses pointer) :
    scene.Evaluates check names uses (Lowering.ofExpression (.deref info p)
      (Lowering.deref info pointer)) := by
  refine evaluates_ofExpression (fun l ctx s hgoes hl => ?_)
  refine (Lower.does_useMemory scene).bind_nil (fun _ s₁ hmemory => ?_)
  refine (h (hgoes.of_takes hmemory)).map (fun n s₂ hn => ?_)
  exact .data (hmemory.append hn.toTakes) hn.formed hl

theorem evaluates_addressOf {operand : Lowering} (h : scene.Evaluates check names uses operand) :
    scene.Evaluates check names uses (Lowering.ofExpression (.addressOf info p)
      (Lowering.addressOf info operand)) := by
  refine evaluates_ofExpression (fun l ctx s hgoes hl => ?_)
  refine (h hgoes).bind_last (fun n s₁ hn => ?_)
  cases n with
  | data dataInfo addr offset =>
    refine (Lower.does_useMemory scene).bind_nil (fun _ s₂ hmemory => .pure ?_)
    refine .of_parts rfl ?_ (by simpa using hn.formed) trivial hl rfl rfl
    exact (hn.toTakes.append hmemory).within Demand.within_append_left
  | _ => exact .throw rfl

theorem evaluates_cast {target : Ty} (h : scene.Evaluates check names uses value)
    (hkind : (value.node.type.isScalar ∧ info.type.isScalar) ∨ value.node.type.takes info.type) :
    scene.Evaluates check names uses (Lowering.ofExpression (.cast info p target)
      (Lowering.cast info value)) := by
  refine evaluates_ofExpression (fun l ctx s hgoes hl => ?_)
  refine (h hgoes).bind_last (fun n s₁ hn => ?_)
  -- A value is cast to a type like its own, or from scalar to scalar.
  have hcases : n.layout.Similar l ∨ (n.layout.isScalar ∧ l.isScalar) := by
    rcases hkind with ⟨hvalue, hinfo⟩ | htakes
    · rw [Layout.isScalar, hn.scalar?_eq, Layout.isScalar, TypeTable.scalar?_layout hl]
      exact .inr ⟨Ty.isScalar_iff.mp hvalue, Ty.isScalar_iff.mp hinfo⟩
    · obtain ⟨m, hm, hsimilar⟩ := hn.type
      rw [← layout_unwrap] at hm
      refine .inl (hsimilar.trans (TypeTable.similar_layout htakes hm ?_))
      rw [layout_unwrap]
      exact hl
  have hfaithful := isFaithful_layout hl
  refine .ite (fun hsame => ?_) (fun _ => .pure ?_)
  · refine (does_ofResult (fun _ => Node.isOrdinary_of_reference)).mono ?_
    rintro k _ ⟨hk, rfl⟩
    obtain ⟨hlayout, -⟩ := Node.reference_eq_ok hk
    obtain ⟨hdemand, hformed, hwhole⟩ := Node.reference_spec hk
    have hsimilar : n.layout.Similar l := by
      obtain hsimilar | ⟨hnscalar, hlscalar⟩ := hcases
      · exact hsimilar
      · exact Layout.similar_of_scalar?_eq hnscalar
          (Layout.scalar?_eq_of_same hn.isFaithful hfaithful hnscalar hlscalar hsame)
    exact {
      toTakes := hdemand ▸ hn.toTakes
      formed := hformed _ _ hn.formed
      type := ⟨l, hl, hlayout ▸ hsimilar⟩
      known := hlayout ▸ hn.known
      whole := hwhole _ hn.whole
      place := by rintro ⟨⟩ }
  · refine .of_parts rfl hn.toTakes (by simpa using hn.formed) ?_ hl rfl rfl
    exact hcases.imp_left (fun hsimilar => hsimilar.alike)

/-! ## Fields and elements -/

/-- A field that is found by its name has the layout of the type found by this name. -/
theorem layout_of_find? {bindings : List (String × Ty)} {field : Field Layout}
    (h : List.Forall₂ (Layout.Builds scene.types.layout) bindings fields) (ht : bindings.lookup name = some t)
    (hfield : fields.find? (fun field => field.name == name) = some field) :
    scene.types.layout t = .ok field.layout := by
  induction h with
  | nil => cases ht
  | @cons binding first _ _ hbuilds _ ih =>
    obtain ⟨hname, hlayout⟩ := hbuilds
    rw [List.lookup_cons] at ht
    rw [List.find?_cons, hname] at hfield
    by_cases heq : name = binding.1
    · subst heq
      simp only [BEq.rfl, Option.some.injEq] at ht hfield
      rw [← ht, ← hfield]
      exact hlayout
    · have hne : (binding.1 == name) = false := beq_false_of_ne (Ne.symm heq)
      rw [beq_false_of_ne heq] at ht
      rw [hne] at hfield
      exact ih ht hfield

theorem exists_layout_of_field? (hfield : scene.types.field? t name = some field)
    (hl : scene.types.layout t = .ok l) :
    ∃ tag union size fields, l = .struct tag union size fields ∧
      ∀ f, fields.find? (fun f => f.name == name) = some f → scene.types.layout field = .ok f.layout := by
  obtain ⟨a, ha, hname⟩ := Option.bind_eq_some_iff.mp hfield
  unfold TypeTable.aggregate? at ha
  cases ht : t.unwrap with
  | aggregate id =>
    rw [ht] at ha
    rw [← layout_unwrap, ht] at hl
    obtain ⟨a', tag, size, fields, ha', rfl, hbuilds, -⟩ := TypeTable.layout_aggregate hl
    obtain rfl : a = a' := Option.some.inj (ha.symm.trans ha')
    exact ⟨tag, a.union, size, fields, rfl, fun f => layout_of_find? hbuilds hname⟩
  | _ => simp [ht] at ha

theorem does_field {base : Tree} (htakes : s.Takes scene s' n.demand)
    (hn : n.Formed scene ctx.around) (hknown : scene.types.Has n.layout)
    (hwhole : n.Whole scene.types) (hl : scene.types.layout t = .ok l)
    (hsimilar : n.layout.Similar l) (hplace : (Tree.member info base name).isPlace → n.isPlace)
    (hfield : scene.types.field? t name = some field) (htype : info.type.unwrap = field.unwrap) :
    Lower.Does (do
      let (base, prelude) ← Lowering.selectable n
      let part ← Lower.ofResult (base.select name)
      return Lowering.after info.pos prelude (← Lower.ofResult (part.reference info.pos)))
      ctx s' [] (scene.Brings ctx s (.member info base name)) := by
  have htakes : s.Takes scene s' (n.demand ++ Node.demandAll []) := by simpa using htakes
  refine (does_selectable htakes hwhole).bind_nil ?_
  rintro ⟨m, prelude⟩ s₂ hselects
  refine (does_ofResult (fun _ => Node.isOrdinary_of_select)).bind_nil ?_
  rintro part _ ⟨hpart, rfl⟩
  obtain ⟨tag, union, size, fields, rfl, hfound⟩ := exists_layout_of_field? hfield hl
  obtain ⟨tag', fields', hlayout, hfields⟩ := hsimilar.fields
  obtain ⟨f, hf, hpartLayout, hisPart⟩ := Node.isPart_of_select hpart
    (hselects.layout.trans hlayout) (hselects.layout ▸ hknown) hselects.whole
  obtain ⟨f', hf', hlike⟩ := hfields.find? hf
  exact does_after hselects hn nofun hisPart (hfound f' hf') (hpartLayout.trans hlike) htype hplace

theorem evaluates_member (hnode : value.node = p) (h : scene.Evaluates check names uses value)
    (hfield : scene.types.field? value.node.type.record name = some field)
    (htype : info.type.unwrap = field.unwrap) :
    scene.Evaluates check names uses (Lowering.ofExpression (.member info p name)
      (fun _ => Lowering.member info value name)) := by
  subst hnode
  refine evaluates_ofExpression (fun _ ctx s hgoes _ => ?_)
  refine (h hgoes).bind_last (fun n s₁ hn => ?_)
  cases ht : value.node.type.unwrap with
  | pointer occurrence elem =>
    simp only
    refine (Lower.does_useMemory scene).bind_nil (fun _ s₂ hmemory => does_layoutOf.bind_nil ?_)
    rintro l s₃ ⟨hl, rfl⟩
    rw [(hgoes.of_takes (hn.toTakes.append hmemory)).types] at hl
    have hrecord : value.node.type.record = elem.unwrap := by rw [Ty.record, ht]
    have hmemory : s.Takes scene s₃ (Node.data ⟨value.node.pos, l⟩ n 0).demand :=
      (hn.toTakes.append hmemory).within (Demand.within_comm (.ofNeeds [.memory]) n.demand)
    refine does_field hmemory ?_ ⟨elem, hl⟩ (.plain rfl) ?_ (.refl l) (fun _ => rfl) hfield htype
    · exact .of_parts rfl (by simpa using hn.formed) (isFaithful_layout hl) trivial
    · rw [hrecord, layout_unwrap]
      exact hl
  | aggregate id =>
    simp only
    have hrecord : value.node.type.record = value.node.type.unwrap := by rw [Ty.record, ht]
    obtain ⟨l, hl, hsimilar⟩ := hn.type
    refine does_field hn.toTakes hn.formed hn.known hn.whole ?_ hsimilar (fun h => hn.place ?_) hfield htype
    · rw [hrecord, layout_unwrap]
      exact hl
    · simpa [Tree.isPlace, Ty.isPointer, ht] using h
  | location elem => exact absurd ht (Ty.unwrap_ne_location _ _)
  | _ => simp [Ty.record, ht, TypeTable.field?, TypeTable.aggregate?, Ty.unwrap] at hfield

theorem evaluates_pointee (harray : scene.Evaluates check names uses array)
    (hindex : scene.Evaluates check names uses' index) (hpointer : array.node.type.isPointer) :
    scene.Evaluates check names (uses ++ uses') (Lowering.ofExpression (.subscript info p q)
      (Lowering.subscript info array index)) := by
  refine evaluates_ofExpression (fun l ctx s hgoes hl => ?_)
  refine harray.two hindex hgoes (fun x y s₁ s₂ hx hy => ?_)
  dsimp only
  rw [Ty.isPointer_unwrap, if_pos hpointer]
  refine (Lower.does_useMemory scene).bind_nil (fun _ s₃ hmemory => .pure ?_)
  obtain ⟨hformed, hdemand⟩ := indexValue_spec hy.formed
  refine .data ?_ (formed_offsetBy hx.formed hformed) hl
  rw [Node.offsetBy, Node.demand_scaledOffset, hdemand]
  exact ((hx.toTakes.append hy.toTakes).append hmemory).within (Demand.within_comm _ _)

theorem does_slotIndex (hidx : idx.Shaped scene.functions) :
    (Lowering.slotIndex pos t m idx).Does ctx s' []
      (fun k s'' => s'' = s' ∧ k.demand = .none ∧ k.Shaped scene.functions) := by
  refine Lower.does_fold.bind_nil ?_
  rintro k _ ⟨hbecomes, rfl⟩
  split
  · exact .throw rfl
  next c hconstant =>
    have hsome := Option.isSome_of_eq_some hconstant
    refine .ite (fun _ => .get (.throw rfl)) (fun _ => .pure ⟨rfl, Node.demand_of_constant? hsome, ?_⟩)
    exact (hbecomes.shaped hidx).1

theorem does_element {array index : Tree} (hselects : scene.Selects s s' n others m prelude)
    (hn : n.Formed scene ctx.around) (hothers : ∀ k ∈ others, k.Formed scene ctx.around)
    (hidx : ∀ around, (∀ k ∈ others, k.Formed scene around) → idx.Formed scene around)
    (hdemand : idx.demand.Within (Node.demandAll others)) (hknown : scene.types.Has n.layout)
    (hl : scene.types.layout array.type = .ok l) (hsimilar : n.layout.Similar l)
    (ht : array.type.unwrap = .array occurrence length elem)
    (htype : info.type.unwrap = elem.unwrap)
    (hplace : (Tree.subscript info array index).isPlace → n.isPlace) :
    Lower.Does (do
      let part ← Lower.ofResult (m.index idx)
      return Lowering.after info.pos prelude (← Lower.ofResult (part.reference info.pos)))
      ctx s' [] (scene.Brings ctx s (.subscript info array index)) := by
  refine (does_ofResult (fun _ => Node.isOrdinary_of_index)).bind_nil ?_
  rintro part _ ⟨hpart, rfl⟩
  rw [← layout_unwrap, ht] at hl
  obtain ⟨el, tag, hel, rfl⟩ := TypeTable.layout_array hl
  obtain ⟨tag', el', hlayout, hlike⟩ := hsimilar.element
  obtain ⟨hpartLayout, hisPart⟩ := Node.isPart_of_index hpart (hselects.layout.trans hlayout)
    (hselects.layout ▸ hknown) hselects.whole
  refine does_after hselects hn hothers (hisPart.mono ?_ ?_) hel (hpartLayout.trans hlike) htype hplace
  · simpa using hdemand
  · intro around hformed
    simpa using hidx around hformed

theorem evaluates_element (hnode : array.node = p)
    (harray : scene.Evaluates check names uses array)
    (hindex : scene.Evaluates check names uses' index)
    (ht : array.node.type.unwrap = .array occurrence length elem)
    (htype : info.type.unwrap = elem.unwrap) :
    scene.Evaluates check names (uses ++ uses') (Lowering.ofExpression (.subscript info p q)
      (Lowering.subscript info array index)) := by
  subst hnode
  refine evaluates_ofExpression (fun l ctx s hgoes _ => ?_)
  refine harray.two hindex hgoes (fun x y s₁ s₂ hx hy => ?_)
  have hpointer : array.node.type.isPointer = false := by simp [Ty.isPointer, ht]
  dsimp only
  rw [Ty.isPointer_unwrap, hpointer, if_neg Bool.false_ne_true]
  obtain ⟨hformed, hdemand⟩ := indexValue_spec hy.formed
  have htakes : s.Takes scene s₂ (x.demand ++ Node.demandAll [Lowering.indexValue y]) := by
    simpa [hdemand] using hx.toTakes.append hy.toTakes
  have hothers : ∀ k ∈ [Lowering.indexValue y], k.Formed scene ctx.around := by simpa using hformed
  have hplace (h : (Tree.subscript info array.node q).isPlace) : x.isPlace :=
    hx.place (by simpa [Tree.isPlace, Ty.isPointer, ht] using h)
  obtain ⟨lx, hlx, hsimilar⟩ := hx.type
  refine (does_selectable htakes hx.whole).bind_nil ?_
  rintro ⟨m, prelude⟩ s₃ hselects
  have hword : Lower.Does (do
      let part ← Lower.ofResult (m.index (Lowering.indexValue y))
      return Lowering.after info.pos prelude (← Lower.ofResult (part.reference info.pos)))
      ctx s₃ [] (scene.Brings ctx s (.subscript info array.node q)) :=
    does_element hselects hx.formed hothers (fun around h => h _ (.head _))
      (by simpa using Demand.Within.refl _) hx.known hlx hsimilar ht htype hplace
  have hconstant : Lower.Does (do
      let idx ← Lowering.slotIndex index.node.pos array.node.type.unwrap m (Lowering.indexValue y)
      let part ← Lower.ofResult (m.index idx)
      return Lowering.after info.pos prelude (← Lower.ofResult (part.reference info.pos)))
      ctx s₃ [] (scene.Brings ctx s (.subscript info array.node q)) := by
    refine (does_slotIndex hformed.shaped).bind_nil ?_
    rintro k _ ⟨rfl, hnone, hshaped⟩
    refine does_element hselects hx.formed hothers (fun around _ => ?_) ?_ hx.known hlx hsimilar ht
      htype hplace
    · exact .of_free hshaped (hnone ▸ ⟨rfl, rfl⟩)
    · rw [hnone]
      exact .none _
  cases m with
  | data => exact hword
  | _ => exact hconstant

end Scene

end TreeWasm
