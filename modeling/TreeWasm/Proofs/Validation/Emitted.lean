import TreeWasm.Proofs.Validation.Storing

/-! # Emitted code is valid

Whenever emission of a well-formed node succeeds, its code takes nothing off the stack and leaves a
value of the layout of the node, by the typing rules.
-/

namespace TreeWasm

open Wasm

open Wasm.Instr (AllValid)

open Emit (Ensures)
open Layout (slots_of_isScalar slots_of_slot isScalar_of_slot_eq slots_of_isVoid)

namespace Tables

/-- The tables give declared slots their types. -/
def Declares (tables : Tables) (declared : Nat → Option ValType) : Prop :=
  ∀ slot type, declared slot = some type → tables.slots slot = some type

end Tables

namespace Node

/-- The code of a node in its surroundings is valid. -/
abbrev Typed (Γ : Surroundings) (site : Site) (context : EmitContext) (n : Node) : Prop :=
  n.emission.Valid site context (fun tables => tables.Declares Γ.slots) n.layout

namespace Typed

variable {Γ : Surroundings} {site : Site} {context : EmitContext} {info : Info}
  {cond index value x y : Node} {op : Operator} {label : Option Nat}

theorem of_value {n : Node} {value : Emit Code} {types : List ValType}
    (htypes : n.layout.slots = types)
    (h : value.Valid site context (fun tables => tables.Declares Γ.slots) [] types) :
    (Emission.ofValue n value).Valid site context (fun tables => tables.Declares Γ.slots) n.layout := by
  subst htypes
  exact Emission.valid_ofValue h

theorem load_scalar (h : x.Typed Γ site context) (hscalar : x.layout.isScalar) :
    x.emission.load.Valid site context (·.Declares Γ.slots) [] [x.layout.slot] := by
  rw [← slots_of_isScalar hscalar]
  exact h.load

theorem load_word (h : x.Typed Γ site context) (hslot : x.layout.slot = .i32) :
    x.emission.load.Valid site context (·.Declares Γ.slots) [] [.i32] := by
  rw [← slots_of_slot hslot (by decide)]
  exact h.load

theorem constFloat {v : Double} (h : (Node.constFloat info v).WellFormed Γ) :
    (Node.constFloat info v).Typed Γ site context := by
  refine .of_value (slots_of_isScalar (Layout.isScalar_of_isFloat h)) ?_
  split
  next hslot => exact .pure (fun _ _ => .single ⟨rfl, congrArg (fun type => [type]) hslot⟩)
  next hslot =>
    have hdouble : info.layout.slot = .f64 := (Layout.slot_of_isFloat h).resolve_left hslot
    exact .pure (fun _ _ => .single ⟨rfl, congrArg (fun type => [type]) hdouble⟩)

theorem binary (h : (Node.binary info op x y).WellFormed Γ) (hx : x.Typed Γ site context)
    (hy : y.Typed Γ site context) : (Node.binary info op x y).Typed Γ site context := by
  obtain ⟨_, _, hslotx, hsloty, hop⟩ := h
  have hscalar := Layout.isScalar_of_arith hop
  refine .of_value (slots_of_isScalar hscalar)
    ((hx.load_scalar (isScalar_of_slot_eq hscalar hslotx)).bind (fun left =>
      (hy.load_scalar (isScalar_of_slot_eq hscalar hsloty)).bind (fun right =>
        Ensures.ofLayout.bind (fun instr => Ensures.read.bind (fun c => .pure
          (fun tables _ hinstr hright hleft hbase => ?_))))))
  obtain ⟨hparams, hresult⟩ := Layout.types_arith hinstr
  have hop : AllValid tables site [.numeric instr] [info.layout.slot, info.layout.slot]
      [info.layout.slot] := .single ⟨hparams.symm, by rw [hresult]⟩
  have hoperands := (hleft hbase).append ((hright hbase).push _)
  rw [hslotx, hsloty] at hoperands
  exact hoperands.append (hop.append (Instr.valid_layout_clamp info.layout c.signExt))

theorem compare (h : (Node.compare info op x y).WellFormed Γ) (hx : x.Typed Γ site context)
    (hy : y.Typed Γ site context) : (Node.compare info op x y).Typed Γ site context := by
  obtain ⟨_, _, hsloty, hop, hslot⟩ := h
  have hscalar := Layout.isScalar_of_compare hop
  refine .of_value (slots_of_slot hslot (by decide)) ((hx.load_scalar hscalar).bind
    (fun left => (hy.load_scalar (isScalar_of_slot_eq hscalar hsloty)).bind (fun right =>
      Ensures.ofLayout.bind (fun instr => .pure (fun tables hinstr hright hleft hbase => ?_)))))
  obtain ⟨hparams, hresult⟩ := Layout.types_compare hinstr
  have hoperands := (hleft hbase).append ((hright hbase).push _)
  rw [hsloty] at hoperands
  exact hoperands.append (.single ⟨hparams.symm, by rw [hresult]⟩)

theorem unary (h : (Node.unary info op x).WellFormed Γ) (hx : x.Typed Γ site context) :
    (Node.unary info op x).Typed Γ site context := by
  refine .of_value (slots_of_isScalar h.2.isScalar) ?_
  exact Ensures.unaryCode_valid h.2 (hx.load_scalar h.2.isScalar_source)

theorem convert (h : (Node.convert info x).WellFormed Γ) (hx : x.Typed Γ site context) :
    (Node.convert info x).Typed Γ site context := by
  obtain ⟨_, hsource, htarget⟩ := h
  obtain ⟨a, ha⟩ := Option.isSome_iff_exists.mp hsource
  obtain ⟨b, hb⟩ := Option.isSome_iff_exists.mp htarget
  have hconversion := @Ensures.conversion_valid context site _ _ a b ha hb info.pos
  rw [← Layout.slot_of_scalar? ha, ← Layout.slot_of_scalar? hb] at hconversion
  exact .of_value (slots_of_isScalar htarget) ((hx.load_scalar hsource).bind (fun code =>
    hconversion.bind (fun more => .pure (fun tables hmore hcode hbase =>
      (hcode hbase).append hmore))))

theorem scaledOffset {ptr : Node} {size : Int64}
    (h : (Node.scaledOffset info ptr index size).WellFormed Γ) (hptr : ptr.Typed Γ site context)
    (hindex : index.Typed Γ site context) :
    (Node.scaledOffset info ptr index size).Typed Γ site context := by
  obtain ⟨_, _, hslotPtr, hslot, hslotIndex⟩ := h
  refine .of_value (slots_of_slot hslot (by decide)) ((hptr.load_word hslotPtr).bind (fun left =>
    (hindex.load_word hslotIndex).bind (fun right => .pure (fun tables hright hleft hbase => ?_))))
  exact (((hleft hbase).append ((hright hbase).push [.i32])).append
    (Instr.valid_scale.frame [.i32])).append (.single ⟨rfl, rfl⟩)

/-- A node in a slot for addresses can be used as an address. -/
theorem address {addr : Node} (hwf : addr.WellFormed Γ) (hslot : addr.layout.slot = .i32)
    (h : addr.Typed Γ site context) :
    addr.emission.address.Valid site context (fun tables => tables.Declares Γ.slots) := by
  obtain ⟨hlayout, hcode⟩ := emission_address hwf.isAbsent_eq
  refine ⟨by rw [hlayout, hslot], ?_⟩
  rw [hcode]
  exact h.load_word hslot

theorem addressOf (h : (Node.addressOf info x).WellFormed Γ)
    (haddr : AddressHas (fun addr => addr.WellFormed Γ → addr.Typed Γ site context) x) :
    (Node.addressOf info x).Typed Γ site context := by
  obtain ⟨hword, hin⟩ := h
  cases x with
  | data dinfo addr offset =>
    obtain ⟨hwf, hslot⟩ := hin
    have haddress := (haddr dinfo addr offset rfl hwf).address hwf hslot
    refine .of_value (slots_of_slot hword (by decide)) ?_
    change Ensures context (Node.data dinfo addr offset).emission.reach _
    rw [emission_reach]
    split
    · exact .pure (fun tables _ => .single ⟨rfl, rfl⟩)
    · refine haddress.code.bind (fun code => ?_)
      split
      · exact .pure (fun tables hcode => hcode)
      · exact .pure (fun tables hcode hbase =>
          (hcode hbase).append Instr.valid_const32_int)
  | _ => exact hin.elim

section

variable (hserves : site.Serves Γ context)
include hserves

theorem branchIf {label : Nat} (h : (Node.branchIf info label cond).WellFormed Γ)
    (hcond : cond.Typed Γ site context) : (Node.branchIf info label cond).Typed Γ site context := by
  obtain ⟨hvoid, hlabel, _, hslot⟩ := h
  refine .of_value (slots_of_isVoid hvoid) ((hcond.load_word hslot).bind (fun code =>
    Ensures.depth.bind (fun d => .pure (fun tables hdepth hcode hbase => ?_))))
  exact (hcode hbase).append (.single ⟨hserves.reach label hlabel d hdepth, rfl⟩)

theorem branchTable {labels : List Nat} {default : Nat}
    (h : (Node.branchTable info index labels default).WellFormed Γ)
    (hindex : index.Typed Γ site context) :
    (Node.branchTable info index labels default).Typed Γ site context := by
  obtain ⟨hvoid, hlabels, _, hslot⟩ := h
  refine .of_value (slots_of_isVoid hvoid) ((hindex.load_word hslot).bind (fun code =>
    (Ensures.mapM labels (fun _ _ => .depth)).bind (fun depths =>
      Ensures.depth.bind (fun d => .pure (fun tables hdepth hdepths hcode hbase => ?_)))))
  refine (hcode hbase).append (.single ⟨[], ?_, List.suffix_refl _⟩)
  exact forall_mem_of_forall₂ (.cons hdepth hdepths) hlabels (fun label depth hfound hlabel =>
    hserves.reach label hlabel depth hfound)

theorem ret (h : (Node.ret info value).WellFormed Γ)
    (hvalue : value.WellFormed Γ → value.Typed Γ site context) :
    (Node.ret info value).Typed Γ site context := by
  obtain ⟨hvoid, hresult⟩ := h
  refine .of_value (slots_of_isVoid hvoid) ?_
  rcases hresult with ⟨habsent, hnone⟩ | ⟨hwf, halike⟩
  · rw [if_pos habsent]
    have hresults : site.results = [] := by rw [hserves.results, slots_of_isVoid hnone]
    refine .pure (fun tables _ => .single ?_)
    change site.results <:+ []
    simp [hresults]
  · rw [if_neg (by simp [hwf.isAbsent_eq])]
    refine (hvalue hwf).load.bind (fun code => .pure (fun tables hcode hbase => ?_))
    refine (hcode hbase).append (.single ?_)
    rw [halike.1.slots_eq, ← hserves.results]
    exact List.suffix_refl _

end

theorem drop (h : (Node.drop info x).WellFormed Γ) (hx : x.Typed Γ site context) :
    (Node.drop info x).Typed Γ site context := by
  refine .of_value (slots_of_isVoid h.1) (hx.load.bind (fun code =>
    Ensures.ofLayout.bind (fun types => .pure (fun tables htypes hcode hbase => ?_))))
  rw [List.map_const', ← (Layout.slots_of_flatten htypes).2]
  exact (hcode hbase).append (.drops rfl)

theorem call {func : Nat} {name : String} {args : List Node} (hserves : site.Serves Γ context)
    (h : (Node.call info func name args).WellFormed Γ)
    (hargs : ∀ n ∈ args, n.Typed Γ site context) :
    (Node.call info func name args).Typed Γ site context := by
  refine Emission.valid_ofValue ((Emission.loadAll_valid hargs).bind (fun code => .pure
    (fun tables hcode hbase => (hcode hbase).append (.single ?_))))
  exact (congrFun hserves.functions func).trans h.2.2

theorem assign {target : Node} (h : (Node.assign info target value).WellFormed Γ)
    (haddr : AddressHas (fun addr => addr.WellFormed Γ → addr.Typed Γ site context) target)
    (hvalue : value.Typed Γ site context) :
    (Node.assign info target value).Typed Γ site context := by
  obtain ⟨hvoid, hplace, htarget, _, hfits⟩ := h
  refine .of_value (slots_of_isVoid hvoid) (hvalue.store _ _ (fun _ hbase => hbase) ?_)
  cases target with
  | locals tinfo slots =>
    refine ⟨hfits, fun tables hbase => ?_⟩
    rw [hfits.slots_eq]
    exact map_eq_map_some htarget.2 hbase
  | data tinfo addr offset =>
    exact ⟨hfits, (haddr tinfo addr offset rfl htarget.1).address htarget.1 htarget.2.1⟩
  | _ => cases hplace

theorem ifElse {yes no : Node} (h : (Node.ifElse info cond yes no).WellFormed Γ)
    (hcond : cond.Typed Γ site context)
    (hyes : yes.Typed Γ (site.enter info.layout.slots) (context.inside none))
    (hno : no.WellFormed Γ → no.Typed Γ (site.enter info.layout.slots) (context.inside none)) :
    (Node.ifElse info cond yes no).Typed Γ site context := by
  obtain ⟨_, hslot, _, halike, helse⟩ := h
  have hyesLoad := hyes.load
  rw [halike.1.slots_eq] at hyesLoad
  refine Emission.valid_ofValue ((hcond.load_word hslot).bind (fun test =>
    Ensures.blockType.bind (fun type => (Ensures.inside hyesLoad).bind (fun yesCode => ?_))))
  rcases helse with ⟨habsent, hvoid⟩ | ⟨hwf, halikeNo⟩
  · rw [if_pos habsent]
    refine .pure (fun tables hyes htype htest hbase => (htest hbase).append (.single ?_))
    have hempty := slots_of_isVoid hvoid
    have hyes := hyes hbase
    have hsignature := htype.2
    rw [hempty] at hyes hsignature
    change Instr.Valid tables site (.ifThen type yesCode) [.i32] info.layout.slots
    rw [hempty]
    exact ⟨rfl, hsignature, hyes⟩
  · rw [if_neg (by simp [hwf.isAbsent_eq])]
    have hnoLoad := (hno hwf).load
    rw [halikeNo.1.slots_eq] at hnoLoad
    refine (Ensures.inside hnoLoad).bind (fun noCode => .pure
      (fun tables hno hyes htype htest hbase => (htest hbase).append (.single ?_)))
    exact ⟨[], rfl, htype.2, hyes hbase, hno hbase⟩

theorem loop {body : Node} (hserves : site.Serves Γ context)
    (h : (Node.loop info label body).WellFormed Γ)
    (hbody : ∀ {Γ site context}, site.Serves Γ context → body.WellFormed Γ →
      body.Typed Γ site context) : (Node.loop info label body).Typed Γ site context := by
  obtain ⟨hwf, halike⟩ := h
  have hslots : info.layout.slots = body.layout.slots := halike.1.slots_eq.symm
  refine .of_value hslots (Ensures.read.bind_of (fun c hc => ?_))
  obtain ⟨_, rfl⟩ := hc
  split
  next hunused =>
    have hload := (hbody (hserves.skip true hunused) hwf).load
    rw [Surroundings.slots_enter] at hload
    exact hload.mono (fun code tables hcode _ => hcode)
  next hused =>
    have hload := (hbody (hserves.enter hused (fun _ => rfl)) hwf).load
    rw [Surroundings.slots_enter] at hload
    refine Ensures.blockType.bind (fun type => (Ensures.inside hload).bind (fun code => .pure
      (fun tables hcode htype _ hbase => .single ?_)))
    rw [← hslots]
    exact ⟨htype.2, hslots ▸ hcode hbase⟩

theorem block {children : List Node} (hserves : site.Serves Γ context)
    (h : (Node.block info label children).WellFormed Γ)
    (hchildren : ∀ n ∈ children, ∀ {Γ site context}, site.Serves Γ context → n.WellFormed Γ →
      n.Typed Γ site context) : (Node.block info label children).Typed Γ site context := by
  obtain ⟨hwf, hsequence⟩ := h
  replace hwf := allWellFormed_iff.mp hwf
  refine .of_value hsequence.slots_eq (Ensures.read.bind_of (fun c hc => ?_))
  obtain ⟨_, rfl⟩ := hc
  split
  next hunused =>
    have hload := Emission.loadAll_valid (fun n hn =>
      hchildren n hn (hserves.skip info.layout.isVoid hunused) (hwf n hn))
    rw [Surroundings.slots_enter] at hload
    exact hload.mono (fun code tables hcode _ => hcode)
  next hused =>
    have hinside := hserves.enter hused (@slots_of_isVoid info.layout)
    have hload := Emission.loadAll_valid (fun n hn => hchildren n hn hinside (hwf n hn))
    rw [Surroundings.slots_enter] at hload
    refine Ensures.blockType.bind (fun type => (Ensures.inside hload).bind (fun code => .pure
      (fun tables hcode htype _ hbase => .single ?_)))
    rw [← hsequence.slots_eq]
    exact ⟨htype.2, hsequence.slots_eq ▸ hcode hbase⟩

end Typed

theorem typed_of_wellFormed {Γ : Surroundings} {site : Site} {context : EmitContext} {n : Node}
    (hserves : site.Serves Γ context) (h : n.WellFormed Γ) : n.Typed Γ site context := by
  induction n using partsInduction generalizing Γ site context with
  | absent => exact h.elim
  | const32 info v =>
    have hslots : (const32 info v).layout.slots = [.i32] := slots_of_slot h (by decide)
    -- Only the address of a constant differs from that of any other value.
    have hvalue : (Emission.ofValue (const32 info v) (return [.const32 v])).Valid site context
        (fun tables => tables.Declares Γ.slots) (const32 info v).layout :=
      Typed.of_value hslots (.pure (fun _ _ => .single ⟨rfl, rfl⟩))
    exact ⟨hvalue.load, hvalue.store⟩
  | const64 info v =>
    have hslots : info.layout.slots = [.i64] := slots_of_slot h (by decide)
    exact .of_value hslots (.pure (fun _ _ => .single ⟨rfl, rfl⟩))
  | constFloat info v => exact .constFloat h
  | binary info op x y hx hy => exact .binary h (hx hserves h.1) (hy hserves h.2.1)
  | unary info op x hx => exact .unary h (hx hserves h.1)
  | convert info x hx => exact .convert h (hx hserves h.1)
  | compare info op x y hx hy => exact .compare h (hx hserves h.1) (hy hserves h.2.1)
  | data info addr offset haddr =>
    exact Emission.valid_ofData ((haddr hserves h.1).address h.1 h.2.1)
  | scaledOffset info ptr index size hptr hindex =>
    exact .scaledOffset h (hptr hserves h.1) (hindex hserves h.2.1)
  | locals info slots => exact Emission.valid_ofLocals (fun tables hbase => map_eq_map_some h.2 hbase)
  | ifElse info cond yes no hcond hyes hno =>
    have hinside := hserves.anonymous info.layout.slots
    exact .ifElse h (hcond hserves h.1) (hyes hinside h.2.2.1) (hno hinside)
  | loop info label body hbody => exact .loop hserves h hbody
  | block info label children ih => exact .block hserves h (fun n hn => ih n hn)
  | seq info children ih =>
    refine .of_value h.2.slots_eq (Emission.loadAll_valid (fun n hn => ih n hn hserves ?_))
    exact allWellFormed_iff.mp h.1 n hn
  | branch info label =>
    refine .of_value (slots_of_isVoid h.1) (.map (Ensures.depth.mono
      (fun d tables hdepth _ => .single ?_)))
    exact ⟨[], hserves.reach label h.2 d hdepth, List.suffix_refl []⟩
  | branchIf info label cond hcond => exact .branchIf hserves h (hcond hserves h.2.2.1)
  | branchTable info index labels default hindex =>
    exact .branchTable hserves h (hindex hserves h.2.2.1)
  | ret info value hvalue => exact .ret hserves h (hvalue hserves)
  | unreachable info =>
    exact .of_value (slots_of_isVoid h) (.pure (fun _ _ => .single trivial))
  | nop info => exact .of_value (slots_of_isVoid h) (.pure (fun _ _ => .nil []))
  | drop info x hx => exact .drop h (hx hserves h.2)
  | structLit info parts ih | arrayLit info parts ih =>
    have hwf := allWellFormed_iff.mp h.1
    exact Emission.valid_ofLiteral h.2 (fun part hpart => (hwf part hpart).isOk_leaves)
      (fun part hpart => ih part hpart hserves (hwf part hpart))
  | call info func name args ih =>
    exact .call hserves h (fun n hn => ih n hn hserves (allWellFormed_iff.mp h.1 n hn))
  | assign info target value _ hvalue haddr =>
    refine .assign h (fun tinfo addr offset htarget => ?_) (hvalue hserves h.2.2.2.1)
    exact haddr tinfo addr offset htarget hserves
  | addressOf info x _ haddr =>
    exact .addressOf h (fun dinfo addr offset hx => haddr dinfo addr offset hx hserves)

/-- The code that emission gives for a well-formed node takes nothing off the stack and leaves a value
in the slots of its layout. -/
theorem load_validates {Γ : Surroundings} {site : Site} {context : EmitContext} {n : Node}
    {st st' : EmitState} {code : Code} {tables : Tables} (hserves : site.Serves Γ context)
    (hwf : n.WellFormed Γ) (hload : n.load context st = (.ok code, st')) (htables : tables.Has st')
    (hslots : tables.Declares Γ.slots) :
    ∃ types, n.layout.flatten = .ok types ∧ AllValid tables site code [] types := by
  obtain ⟨_, hcode⟩ := (typed_of_wellFormed hserves hwf).load st code st' hload
  exact ⟨n.layout.slots, Layout.flatten_eq hwf.isOk_leaves, hcode tables htables hslots⟩

/-- If a number is zero: an entry of a table of records takes the values of two slots, and is copied
to the first entry. Its address is computed once for each assignment and kept in a scratch slot. -/
def recordCopy : Node :=
  .block ⟨.unset, .unit⟩ (some 0)
    [.branchIf ⟨.unset, .unit⟩ 0 (.locals number [0]),
      .assign ⟨.unset, .unit⟩ (.data record entry 4)
        (.structLit record [.locals number [0], .locals wide [1]]),
      .assign ⟨.unset, .unit⟩ (.data record (.const32 number 8) 0) (.data record entry 4)]
where
  number : Info := ⟨.unset, .index⟩
  wide : Info := ⟨.unset, .scalar ⟨.builtin .i64, "i64"⟩ .i64⟩
  record : Info := ⟨.unset, .struct ⟨.aggregate 0, "record"⟩ false 16
    [⟨"key", number.layout, 0, 0⟩, ⟨"value", wide.layout, 8, 1⟩]⟩
  entry : Node := .scaledOffset number (.const32 number 8) (.locals number [0]) 16

theorem load_validates_recordCopy :
    ∃ code, recordCopy.load ⟨⟨[1]⟩, true, []⟩ ⟨default, ⟨2, 0, #[], [], []⟩⟩ =
        (.ok code, ⟨default, ⟨2, 0, #[.i32], [2], []⟩⟩) ∧
      AllValid ⟨[], fun slot => [ValType.i32, .i64, .i32][slot]?⟩ ⟨[], [], fun _ => none⟩ code [] [] := by
  have hload : ∃ code, recordCopy.load ⟨⟨[1]⟩, true, []⟩ ⟨default, ⟨2, 0, #[], [], []⟩⟩ =
      (.ok code, ⟨default, ⟨2, 0, #[.i32], [2], []⟩⟩) := ⟨_, rfl⟩
  obtain ⟨code, hload⟩ := hload
  refine ⟨code, hload, ?_⟩
  have hwf : recordCopy.WellFormed ⟨fun slot => [ValType.i32, .i64][slot]?, fun _ => none, .unit, []⟩ := by
    have hentry : recordCopy.entry.WellFormed
        ⟨fun slot => [ValType.i32, .i64][slot]?, fun _ => none, .unit, [0]⟩ :=
      ⟨rfl, ⟨rfl, rfl⟩, rfl, rfl, rfl⟩
    have hfits : recordCopy.record.layout.Fits recordCopy.record.layout := .refl _
    exact ⟨⟨⟨rfl, .head _, ⟨rfl, rfl⟩, rfl⟩,
      ⟨rfl, rfl, ⟨hentry, rfl, rfl⟩, ⟨⟨⟨rfl, rfl⟩, ⟨rfl, rfl⟩, trivial⟩,
        rfl, ⟨rfl, rfl, trivial⟩, .cons (.refl _) (.cons (.refl _) .nil)⟩, hfits⟩,
      ⟨rfl, rfl, ⟨rfl, rfl, rfl⟩, ⟨hentry, rfl, rfl⟩, hfits⟩, trivial⟩, ⟨rfl, rfl, .refl _⟩⟩
  have hserves : Site.Serves ⟨[], [], fun _ => none⟩
      ⟨fun slot => [ValType.i32, .i64][slot]?, fun _ => none, .unit, []⟩ ⟨⟨[1]⟩, true, []⟩ :=
    ⟨rfl, rfl, fun _ h => absurd h List.not_mem_nil, fun _ h => absurd h List.not_mem_nil⟩
  have htables : Tables.Has ⟨[], fun slot => [ValType.i32, .i64, .i32][slot]?⟩
      ⟨default, ⟨2, 0, #[.i32], [2], []⟩⟩ := by
    refine ⟨List.prefix_refl _, fun slot kind hkind => ?_⟩
    match slot with
    | 2 => exact hkind
    | 0 | 1 | _ + 3 => cases hkind
  have hdeclares : Tables.Declares ⟨[], fun slot => [ValType.i32, .i64, .i32][slot]?⟩
      (fun slot => [ValType.i32, .i64][slot]?) := by
    intro slot kind hkind
    match slot with
    | 0 | 1 => exact hkind
    | _ + 2 => cases hkind
  obtain ⟨types, htypes, hvalid⟩ := load_validates hserves hwf hload htables hdeclares
  cases htypes
  exact hvalid

end Node

end TreeWasm
