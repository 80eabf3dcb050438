import TreeWasm.Proofs.Needs.Places

/-! # Emitted code asks for what its node asks for

By the rules for each role of a node, the code that is emitted for it is covered by the demand of the
node: each of its memory accesses, calls, slots and branches comes from the node.
-/

namespace TreeWasm

open Wasm

open Emit (Asks Ensures)

namespace Demand

variable {d e : Demand} {tables : Tables} {around : List (Option Nat)} {type : BlockType}
  {body code : Code} {depth l : Nat} {label : Option Nat}

/-- What a construct with a label asks for if its body asks for a demand. -/
@[grind =]
def labelled (label : Option Nat) (d : Demand) : Demand :=
  { d with constructs := label.toList ++ d.constructs }

theorem within_labelled : d.Within (d.labelled label) := by grind

theorem Covers.append_quiet {after : Code} (h : d.Covers tables around code)
    (hafter : after.all Instr.isQuiet) : d.Covers tables around (code ++ after) :=
  h.wrap [] after rfl hafter

theorem Covers.mark (h : d.Covers tables around code) (pos : Position) :
    d.Covers tables around (.mark pos :: code) := by
  have hmarked := h.wrap [.mark pos] [] rfl rfl
  rwa [List.append_nil] at hmarked

section

variable (h : d.Covers tables (label :: around) body) (htype : (Frame.signature? tables.types type).isSome)
include h htype

omit htype in
theorem Covers.nest {i : Instr} (hnest : ∀ c t, Traces tables d.needs (label :: around) body c t →
      Traces tables d.needs around [i] (label.toList ++ c ++ []) (t ++ [])) :
    (d.labelled label).Covers tables around [i] := by
  obtain ⟨c, t, htraces, hc, ht⟩ := h
  refine ⟨_, _, hnest c t htraces, fun l => ?_, fun l => ?_⟩
  · simpa [labelled, List.count_append] using hc l
  · simpa [labelled] using ht l

theorem Covers.block : (d.labelled label).Covers tables around [.block type body] :=
  h.nest (fun _ _ hbody => .block htype hbody .nil)

theorem Covers.loop : (d.labelled label).Covers tables around [.loop type body] :=
  h.nest (fun _ _ hbody => .loop htype hbody .nil)

end

theorem Covers.ifThen (h : d.Covers tables (.none :: around) body)
    (htype : (Frame.signature? tables.types type).isSome) :
    d.Covers tables around [.ifThen type body] :=
  h.nest (fun _ _ hbody => .ifThen htype hbody .nil)

theorem Covers.ifElse {yes no : Code} (h : d.Covers tables (.none :: around) yes)
    (h' : e.Covers tables (.none :: around) no)
    (htype : (Frame.signature? tables.types type).isSome) :
    (d ++ e).Covers tables around [.ifElse type yes no] := by
  obtain ⟨c, t, htraces, hc, ht⟩ := h
  obtain ⟨c', t', htraces', hc', ht'⟩ := h'
  have hwhole : Traces tables (d ++ e).needs around [.ifElse type yes no] (c ++ c' ++ []) (t ++ t' ++ []) :=
    .ifElse htype (htraces.mono (List.subset_append_left _ _))
      (htraces'.mono (List.subset_append_right _ _)) .nil
  exact ⟨_, _, hwhole, by grind, by grind⟩

theorem covers_branches {ls : List Nat} (h : Traces tables [] around code [] ls) :
    (branches ls).Covers tables around code :=
  ⟨[], ls, h, by simp, fun _ => Nat.le_refl _⟩

end Demand

theorem Address.Asks.mono {address : Address} {d e : Demand} (h : address.Asks d)
    (hwithin : d.Within e) (hfree : d.Free → e.Free) : address.Asks e :=
  ⟨h.code.mono hwithin, fun hstable => hfree (h.free hstable)⟩

theorem Scalar.isQuiet_clamp (kind : Scalar) (signExt : Bool) : (kind.clamp signExt).all Instr.isQuiet := by
  cases kind <;> cases signExt <;> rfl

theorem Layout.isQuiet_clamp (l : Layout) (signExt : Bool) : (l.clamp signExt).all Instr.isQuiet := by
  unfold Layout.clamp
  cases l.scalar? with
  | none => rfl
  | some kind => exact kind.isQuiet_clamp signExt

theorem ensures_conversion {pos : Position} {source target : Layout} {ctx : EmitContext} :
    Ensures ctx (conversion pos source target) (fun code _ => code.all Instr.isQuiet) := by
  refine Ensures.read.bind (fun c => ?_)
  split
  · refine .pure (fun tables _ => ?_)
    cases source.scalar? with
    | none => rfl
    | some kind => cases kind <;> rfl
  · split
    next kind _ =>
      refine .pure (fun tables _ => ?_)
      have hclamp := target.isQuiet_clamp c.signExt
      split <;> first | rfl | exact hclamp
    · exact .fail

namespace Emission

variable {address : Address} {load : Emit Code} {nodes : List Node} {info : Info} {n : Node} {place : Place}

/-- In each of its roles a node asks for no more than a demand. What it is stored to asks for something
besides. -/
structure Asks (e : Emission) (d : Demand) : Prop where
  load : Emit.Asks d e.load
  store : ∀ place dp, Place.Asks dp place → Emit.Asks (d ++ dp) (e.store place)
  place : e.place.Asks d
  address : e.address.Asks d
  reach : Emit.Asks d e.reach

variable {d dp : Demand}

theorem asks_storeLoaded (h : Emit.Asks d load) (hplace : place.Asks dp) :
    Emit.Asks (d ++ dp) (storeLoaded load place) := by
  intro ctx
  cases place with
  | none pos form => exact .fail
  | slots info held =>
    exact (h ctx).bind (fun code => .pure (fun tables hcode => hcode.append (Demand.covers_slots (.inr rfl)
      (fun slot hslot => hplace slot (List.mem_reverse.mp hslot)))))
  | memory info address offset =>
    rw [storeLoaded]
    split
    · refine (hplace.1.code ctx).bind (fun target => (h ctx).bind (fun value => ?_))
      refine Ensures.ofLayout.bind (fun store => .pure (fun tables hstore hvalue htarget => ?_))
      obtain ⟨op, immediate, rfl⟩ := Layout.store_eq_ok hstore
      have hwrite : (Demand.ofNeeds [.memory]).Covers tables ctx.enclosing [.store op immediate] :=
        .plain (fun i hi => List.mem_singleton.mp hi ▸ ⟨rfl, List.mem_singleton_self _⟩)
      have hmemory := hplace.2
      exact ((htarget.append hvalue).append hwrite).mono (by grind)
    · refine (h ctx).bind (fun value => ?_)
      refine (Place.asks_consume hplace ctx).bind (fun code => ?_)
      exact .pure (fun tables hcode hvalue => hvalue.append hcode)

theorem asks_ofValue (n : Node) {value : Emit Code} (h : Emit.Asks d value) : (ofValue n value).Asks d := by
  have hload : Emit.Asks d (do return .mark n.pos :: (← value)) := fun ctx =>
    .map ((h ctx).mono (fun code tables hcode => hcode.mark n.pos))
  exact ⟨hload, fun place dp => asks_storeLoaded hload, trivial, ⟨hload, nofun⟩, .fail⟩

theorem loadAll_cons (part : Emission) (rest : List Emission) :
    loadAll (part :: rest) = do
      let code ← part.load
      let codes ← loadAll rest
      return code ++ codes := by
  simp [loadAll, List.mapM_cons]

/-- Nodes that are emitted one after the other ask for what each of them asks for. -/
theorem asks_loadAll (h : ∀ n ∈ nodes, n.emission.Asks n.demand) :
    Emit.Asks (Node.demandAll nodes) (loadAll (Node.emissions nodes)) := by
  induction nodes with
  | nil => exact fun ctx => .pure (fun tables => .plain nofun)
  | cons n rest ih =>
    intro ctx
    have hfirst := (h n (.head _)).load
    have hrest := ih (fun other hother => h other (.tail _ hother))
    rw [Node.emissions, loadAll_cons]
    refine (hfirst ctx).bind (fun code => (hrest ctx).bind (fun codes => ?_))
    exact .pure (fun tables hcodes hcode => hcode.append hcodes)

/-- Parts of a place are written one after the other. Each write may have to reach the place, so that
what this takes must not branch unless there is but one. -/
theorem asks_storeParts (h : ∀ n ∈ nodes, n.emission.Asks n.demand) (place : Place)
    (hplace : place.Asks dp) (hfree : dp.Free ∨ nodes.length ≤ 1) (index : Nat) :
    Emit.Asks (Node.demandAll nodes ++ dp) (storeParts place index (Node.emissions nodes)) := by
  induction nodes generalizing index with
  | nil => exact fun ctx => .pure (fun tables => .plain nofun)
  | cons n rest ih =>
    intro ctx
    rw [Node.emissions, storeParts]
    split
    · exact .throw
    next target htarget =>
      have hfirst := (h n (.head _)).store target dp (hplace.part htarget)
      refine (hfirst ctx).bind (fun code => ?_)
      rcases hfree with hfree | hone
      · have hrest := ih (fun other hother => h other (.tail _ hother)) (.inl hfree)
        refine (hrest _ ctx).bind (fun codes => .pure (fun tables hcodes hcode => ?_))
        rw [Node.demandAll_cons]
        exact (hcode.append hcodes).mono (by grind)
      · obtain rfl : rest = [] := List.length_eq_zero_iff.mp (by simpa using hone)
        refine .pure (fun tables hcode => ?_)
        rw [List.append_nil, Node.demandAll_cons]
        exact hcode.mono (Demand.within_append_left.append (.refl dp))

theorem asks_storeLiteral (hload : Emit.Asks (Node.demandAll nodes) load)
    (h : ∀ n ∈ nodes, n.emission.Asks n.demand) (hplace : place.Asks dp) :
    Emit.Asks (Node.demandAll nodes ++ dp) (storeLiteral n load (Node.emissions nodes) place) := by
  intro ctx
  cases place with
  | none pos form => exact asks_storeLoaded hload hplace ctx
  | slots info held =>
    rw [storeLiteral]
    split
    · exact asks_storeLoaded hload hplace ctx
    · have hheld : Place.Asks (.ofNeeds dp.needs) (.slots info held) := hplace
      have hparts := asks_storeParts h _ hheld (.inl Demand.free_ofNeeds) 0
      refine (hparts ctx).mono (fun code tables hcode => hcode.mono ?_)
      grind
  | memory info address offset =>
    rw [storeLiteral]
    split
    · exact asks_storeLoaded hload hplace ctx
    · have hmemory := hplace.2
      refine (hplace.1.hold (e := Node.demandAll nodes ++ .ofNeeds [.memory])
        (Node.emissions nodes).length ctx ?_).mono (fun code tables hcode => hcode.mono (by grind))
      intro setup kept spilled k dset hkept huses
      have hfree : (k ++ .ofNeeds [.memory]).Free ∨ nodes.length ≤ 1 := by
        refine huses.imp (fun hk => hk.append Demand.free_ofNeeds) (fun hone => ?_)
        rw [Node.emissions_eq, List.length_map] at hone
        omega
      have hplace' : Place.Asks (k ++ .ofNeeds [.memory]) (.memory info kept offset) :=
        ⟨hkept.mono Demand.within_append_left (fun hk => hk.append Demand.free_ofNeeds),
          by simp [Demand.ofNeeds]⟩
      refine (asks_storeParts h _ hplace' hfree 0 ctx).bind (fun code => ?_)
      refine Ensures.releaseScratch.bind (fun _ => .pure (fun tables _ hcode hsetup => ?_))
      exact (hsetup.append hcode).mono (by grind)

theorem asks_ofLiteral (h : ∀ n ∈ nodes, n.emission.Asks n.demand) :
    (ofLiteral n (Node.emissions nodes)).Asks (Node.demandAll nodes) := by
  have hplain := asks_ofValue n (asks_loadAll h)
  exact { hplain with store := fun place dp => asks_storeLiteral hplain.load h }

theorem asks_ofConst32 {value : Int32} : (ofConst32 info value).Asks .none := by
  have hplain := asks_ofValue (d := .none) (.const32 info value)
    (fun ctx => .pure (a := [.const32 value]) (fun tables => .quiet rfl))
  exact { hplain with address := ⟨hplain.address.code, fun _ => ⟨rfl, rfl⟩⟩ }

theorem asks_ofLocals (held : List Nat) : (ofLocals info held).Asks (.ofNeeds [.slots info.layout held]) := by
  have hplain := asks_ofValue (.locals info held)
    (fun ctx => .pure (a := held.map .localGet) (fun tables =>
      Demand.covers_gets (l := info.layout) (List.Subset.refl held)))
  refine { hplain with store := fun place dp hplace => ?_, place := ?_, address := ?_ }
  · cases place with
    | none | slots => exact asks_storeLoaded hplain.load hplace
    | memory targetInfo address offset =>
      unfold ofLocals
      dsimp only
      split
      · exact asks_storeLoaded hplain.load hplace
      · have hstore : Emit.Asks (dp ++ .ofNeeds [.slots info.layout held])
            (Place.storeSlots targetInfo address offset held) :=
          Place.asks_storeSlots targetInfo hplace.1 hplace.2 offset
        exact hstore.mono (by grind)
  · exact fun slot hslot => ⟨info.layout, held, List.mem_singleton_self _, hslot⟩
  · exact ⟨hplain.address.code, fun _ => Demand.free_ofNeeds⟩

theorem asks_loadLeaves (info : Info) (h : address.Asks d) (offset : Int64) :
    Emit.Asks (.ofNeeds [.memory] ++ d) (loadLeaves info address offset) := by
  intro ctx
  rw [loadLeaves_eq]
  split
  · exact .fail_bind
  · refine Ensures.ofLayout.bind (fun leaves => ?_)
    refine (h.accesses (e := .ofNeeds [.memory]) Demand.free_ofNeeds (Int.le_refl _) ctx
      (fun k code leaf _ => ?_)).mono (fun code tables hcode _ => hcode.mono (by grind))
    refine Ensures.ofLayout.bind (fun load => .pure (fun tables hload hcode => hcode.append ?_))
    obtain ⟨op, immediate, rfl⟩ := Layout.load_eq_ok hload
    exact .plain (fun i hi => List.mem_singleton.mp hi ▸ ⟨rfl, List.mem_singleton_self _⟩)

theorem asks_ofData {addr : Node} (h : address.Asks d) {offset : Int64} :
    (ofData info addr address offset).Asks (.ofNeeds [.memory] ++ d) := by
  have hplain := asks_ofValue (.data info addr offset) (asks_loadLeaves info h offset)
  have hwithin := Demand.within_append_right (.ofNeeds [.memory]) d
  refine { hplain with store := fun place dp hplace => ?_, place := ?_, reach := ?_ }
  · cases place with
    | none | slots => exact asks_storeLoaded hplain.load hplace
    | memory targetInfo target targetOffset =>
      unfold ofData
      dsimp only
      split
      · exact asks_storeLoaded hplain.load hplace
      · exact (asks_copyMemory hplace.1 h hplace.2).mono (hwithin.append (.refl dp))
  · exact ⟨h.mono hwithin (fun hd => Demand.free_ofNeeds.append hd), by simp [Demand.ofNeeds]⟩
  · intro ctx
    unfold ofData
    split
    · exact .pure (fun tables => .quiet rfl)
    · refine (h.code.mono hwithin ctx).bind (fun code => ?_)
      split
      · exact .pure (fun tables hcode => hcode)
      · exact .pure (fun tables hcode => hcode.append_quiet rfl)

theorem asks_unaryCode {op : Operator} {x : Node} {operand : Emit Code} (h : Emit.Asks d operand) :
    Emit.Asks d (unaryCode info op x operand) := by
  intro ctx
  refine Ensures.read.bind (fun c => ?_)
  have hclamp := info.layout.isQuiet_clamp c.signExt
  split
  · refine (h ctx).bind (fun code => .pure (fun tables hcode _ => ?_))
    split
    · exact hcode.append_quiet rfl
    · exact hcode.append_quiet rfl
    · exact hcode.wrap [.const64 0] _ rfl rfl
    · exact hcode.wrap [.const32 0] _ rfl hclamp
  · exact (h ctx).bind (fun code => .pure (fun tables hcode _ => hcode.append_quiet rfl))
  · refine (h ctx).bind (fun code => ?_)
    split
    · exact .pure (fun tables hcode _ => hcode.append_quiet rfl)
    · exact .pure (fun tables hcode _ => hcode.append_quiet hclamp)
  · exact .fail

end Emission

namespace Node

open Emission

variable {info : Info} {cond : Node} {label : Option Nat}

theorem asks_ifElse {yes no : Node} (hcond : cond.emission.Asks cond.demand)
    (hyes : yes.emission.Asks yes.demand) (hno : no.emission.Asks no.demand) :
    (ifElse info cond yes no).emission.Asks (ifElse info cond yes no).demand := by
  refine asks_ofValue (d := cond.demand ++ (yes.demand ++ no.demand)) _ (fun ctx => ?_)
  refine (hcond.load ctx).bind (fun test => Ensures.blockType.bind (fun type => ?_))
  refine (Ensures.inside (hyes.load _)).bind (fun yesCode => ?_)
  split
  · refine .pure (fun tables hyesCode htype htest => htest.append ?_)
    have hknown : (Frame.signature? tables.types type).isSome := by rw [htype.2]; rfl
    exact (hyesCode.ifThen hknown).mono Demand.within_append_left
  · refine (Ensures.inside (hno.load _)).bind (fun noCode => ?_)
    refine .pure (fun tables hnoCode hyesCode htype htest => htest.append ?_)
    exact hyesCode.ifElse hnoCode (by rw [htype.2]; rfl)

theorem asks_loop {body : Node} (hbody : body.emission.Asks body.demand) :
    (loop info label body).emission.Asks (loop info label body).demand := by
  refine asks_ofValue _ (fun ctx => ?_)
  refine Ensures.read.bind (fun c => ?_)
  split
  · exact (hbody.load ctx).mono (fun code tables hcode _ =>
      hcode.mono Demand.within_labelled)
  · refine Ensures.blockType.bind (fun type => (Ensures.inside (hbody.load _)).bind (fun code => ?_))
    exact .pure (fun tables hcode htype _ => hcode.loop (by rw [htype.2]; rfl))

theorem asks_block {children : List Node} (h : ∀ n ∈ children, n.emission.Asks n.demand) :
    (block info label children).emission.Asks (block info label children).demand := by
  refine asks_ofValue _ (fun ctx => ?_)
  refine Ensures.read.bind (fun c => ?_)
  split
  · exact (asks_loadAll h ctx).mono (fun code tables hcode _ =>
      hcode.mono Demand.within_labelled)
  · refine Ensures.blockType.bind (fun type => ?_)
    refine (Ensures.inside (asks_loadAll h _)).bind (fun code => ?_)
    exact .pure (fun tables hcode htype _ => hcode.block (by rw [htype.2]; rfl))

theorem asks_branch {label : Nat} : (branch info label).emission.Asks (branch info label).demand := by
  refine asks_ofValue _ (fun ctx => ?_)
  exact Ensures.depth.bind (fun depth => .pure (fun tables hdepth => Demand.covers_branches (.br hdepth .nil)))

theorem asks_branchIf {label : Nat} (h : cond.emission.Asks cond.demand) :
    (branchIf info label cond).emission.Asks (branchIf info label cond).demand := by
  refine asks_ofValue _ (fun ctx => ?_)
  refine (h.load ctx).bind (fun test => Ensures.depth.bind (fun depth => ?_))
  exact .pure (fun tables hdepth htest => (htest.append (Demand.covers_branches (.brIf hdepth .nil))).mono (by
    rw [demand_branchIf]
    grind))

theorem asks_branchTable {index : Node} {labels : List Nat} {default : Nat}
    (h : index.emission.Asks index.demand) :
    (branchTable info index labels default).emission.Asks (branchTable info index labels default).demand := by
  refine asks_ofValue _ (fun ctx => ?_)
  refine (h.load ctx).bind (fun code => ?_)
  refine (Ensures.mapM _
    (fun label _ => Ensures.depth)).bind (fun depths => Ensures.depth.bind (fun depth => ?_))
  refine .pure (fun tables hdepth hdepths hcode => ?_)
  rw [demand_branchTable]
  exact (hcode.append (Demand.covers_branches (.brTable hdepths hdepth .nil))).mono (by grind)

theorem asks_drop {x : Node} (h : x.emission.Asks x.demand) :
    (drop info x).emission.Asks (drop info x).demand := by
  refine asks_ofValue _ (fun ctx => ?_)
  refine (h.load ctx).bind (fun code => Ensures.ofLayout.bind (fun slots => ?_))
  refine .pure (fun tables _ hcode => hcode.append_quiet ?_)
  simp [Instr.isQuiet]

theorem asks_call {args : List Node} {func : Nat} {name : String}
    (h : ∀ n ∈ args, n.emission.Asks n.demand) :
    (call info func name args).emission.Asks (call info func name args).demand := by
  refine asks_ofValue (d := .ofNeeds [.function func] ++ Node.demandAll args) _ (fun ctx => ?_)
  refine (asks_loadAll h ctx).bind (fun code => .pure (fun tables hcode => ?_))
  have hcall : (Demand.ofNeeds [.function func]).Covers tables ctx.enclosing [.call func] :=
    .plain (fun i hi => List.mem_singleton.mp hi ▸ ⟨rfl, List.mem_singleton_self _⟩)
  exact (hcode.append hcall).mono (by grind)

mutual

/-- In each of its roles a node asks for no more than its demand. -/
theorem asks_emission : (n : Node) → n.emission.Asks n.demand
  | absent =>
    { asks_ofValue absent .fail with load := .fail }
  | const32 info v => asks_ofConst32
  | const64 .. | unreachable _ | nop _ => asks_ofValue _ (fun _ => .pure (fun _ => .quiet rfl))
  | constFloat .. => asks_ofValue _ (fun _ => .pure (fun _ => .quiet (by split <;> rfl)))
  | binary info op x y =>
    asks_ofValue _ (fun ctx => (x.asks_emission.load ctx).bind (fun _ =>
      (y.asks_emission.load ctx).bind (fun _ => Ensures.ofLayout.bind (fun _ =>
        Ensures.read.bind (fun c => .pure (fun _ _ _ hy hx =>
          (hx.append hy).append_quiet (info.layout.isQuiet_clamp c.signExt)))))))
  | unary info op x => asks_ofValue _ (asks_unaryCode x.asks_emission.load)
  | convert info x =>
    asks_ofValue _ (fun ctx => (x.asks_emission.load ctx).bind (fun _ =>
      ensures_conversion.bind (fun _ => .pure (fun _ hquiet hx =>
        hx.append_quiet hquiet))))
  | compare info op x y =>
    asks_ofValue _ (fun ctx => (x.asks_emission.load ctx).bind (fun _ =>
      (y.asks_emission.load ctx).bind (fun _ => Ensures.ofLayout.bind (fun _ =>
        .pure (fun _ _ hy hx => (hx.append hy).append_quiet rfl)))))
  | data info addr offset => asks_ofData addr.asks_emission.address
  | scaledOffset info ptr index size =>
    asks_ofValue _ (fun ctx => (ptr.asks_emission.load ctx).bind (fun _ =>
      (index.asks_emission.load ctx).bind (fun _ => .pure (fun _ hindex hptr => by
        rw [List.append_assoc]
        refine (hptr.append hindex).append_quiet ?_
        split <;> rfl))))
  | locals info slots => asks_ofLocals slots
  | ifElse info cond yes no =>
    asks_ifElse cond.asks_emission yes.asks_emission no.asks_emission
  | loop info label body => asks_loop body.asks_emission
  | block info label children => asks_block (asks_emissions children)
  | seq info children => asks_ofValue (seq info children) (asks_loadAll (asks_emissions children))
  | branch info label => asks_branch
  | branchIf info label cond => asks_branchIf cond.asks_emission
  | branchTable info index labels default =>
    asks_branchTable index.asks_emission
  | ret info value =>
    asks_ofValue _ (fun ctx => by
      split
      · exact .pure (fun _ => .quiet rfl)
      · exact (value.asks_emission.load ctx).bind (fun _ => .pure (fun _ hcode =>
          hcode.append_quiet rfl)))
  | drop info x => asks_drop x.asks_emission
  | structLit info fields => asks_ofLiteral (asks_emissions fields)
  | arrayLit info elems => asks_ofLiteral (asks_emissions elems)
  | call info func name args => asks_call (asks_emissions args)
  | assign info target value => asks_ofValue _
    ((value.asks_emission.store _ _ target.asks_emission.place).mono (Demand.within_comm _ _))
  | addressOf _ x => asks_ofValue _ x.asks_emission.reach

theorem asks_emissions : (nodes : List Node) → ∀ n ∈ nodes, n.emission.Asks n.demand
  | [], _, hn => nomatch hn
  | n :: rest, other, hn =>
    (List.mem_cons.mp hn).elim (fun h => h ▸ n.asks_emission) (asks_emissions rest other)

end

/-- The code of a node is covered by the demand of the node. -/
theorem ensures_load (n : Node) (ctx : EmitContext) :
    Ensures ctx n.load (fun code tables => n.demand.Covers tables ctx.enclosing code) :=
  n.asks_emission.load ctx

end Node

end TreeWasm
