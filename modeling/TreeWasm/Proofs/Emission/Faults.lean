import TreeWasm.Proofs.Emission.Balanced
import TreeWasm.Proofs.Emission.Emittable

/-! # Counted bodies leave no stray branch

A body whose branches are counted and enclosed is emitted without a branch that misses its construct,
and every scratch slot that its code takes is given back once. What can still go wrong is that a layout
or a node is used for something that it is not made for. If the body can be emitted in this respect as
well, then only an offset may turn out to be too large.

`Node.Lands` carries the induction: a construct that is left out has no uses, so no branch leads to it.
-/

namespace TreeWasm

open Wasm

variable {l : Layout} {pos : Position} {value : Emit Code} {info : Info} {labels : Labels} {n : Node}

namespace Failure

/-- The failure is that a layout or a node is used for something that it is not made for. A branch
without its construct, or a slot that is released twice, is not of this kind. -/
def isMisuse (failure : Failure) : Bool :=
  match failure.fault with
  | .layout _ => true
  | .code (.labelOutside _) => false
  | .code _ => true
  | _ => false

/-- The failures of emission that no count of uses prevents. -/
abbrev Misuse (failure : Failure) : Prop := failure.isMisuse = true

/-- An offset is too large for an instruction, or below zero. -/
def Offset (failure : Failure) : Prop :=
  ∃ offset, failure = .layout (.memoryOffset offset) ∧ ¬ (0 ≤ offset ∧ offset ≤ 0xFFFFFFFF)

/-- A fact that excludes misuse is given, unless misuse is allowed. -/
abbrev Expects (allowed : Failure → Prop) (fact : Prop) : Prop :=
  fact ∨ ∀ failure, failure.Misuse → allowed failure

end Failure

open Emit (Balanced)

open Failure (Misuse Expects)

variable {allowed : Failure → Prop} {ctx : EmitContext}

theorem Except.permitted_of {α : Type} {result : Except LayoutDefect α}
    (h : Expects allowed result.isOk) : Permitted allowed result := by
  intro defect hdefect
  obtain hok | hall := h
  · rw [hdefect] at hok
    cases hok
  · exact hall _ rfl

theorem Except.permitted_flatten (h : Expects allowed l.leaves.isOk) : Permitted allowed l.flatten :=
  Except.permitted_of (h.imp_left (fun hok => by rw [Layout.flatten_eq hok]; rfl))

theorem Failure.allowed_of {defect : CodeDefect} (h : Expects allowed False)
    (hdefect : (Failure.code pos defect).Misuse) : allowed (.code pos defect) :=
  h.resolve_left id _ hdefect

section Offsets

variable (hoffset : ∀ failure, failure.Offset → allowed failure)

include hoffset

theorem Layout.permitted_access (hscalar : l.isScalar) (offset : Int64) :
    Except.Permitted allowed (l.load offset) ∧ Except.Permitted allowed (l.store offset) := by
  obtain ⟨kind, hkind⟩ := Option.isSome_iff_exists.mp hscalar
  rw [load, store, hkind, memoryOffset]
  constructor
  all_goals
    intro defect hdefect
    dsimp only at hdefect
    split at hdefect
    · cases hdefect
    next hout =>
      cases hdefect
      exact hoffset _ ⟨offset, rfl, hout⟩

namespace Place

/-- The place is one for values of a layout, and its address gives back what it takes. -/
def Holds (allowed : Failure → Prop) (ctx : EmitContext) (l : Layout) : Place → Prop
  | memory info address _ =>
    address.Balanced allowed ctx ∧ Expects allowed (l.leaves.isOk ∧ l.Fits info.layout)
  | slots info _ => Expects allowed (l.leaves.isOk ∧ l.Fits info.layout)
  | none .. => Expects allowed False

variable {place : Place} {l m : Layout} {parts : List Layout}

omit hoffset in
theorem Holds.leaves (h : place.Holds allowed ctx l) : Expects allowed l.leaves.isOk := by
  cases place with
  | none => exact h.imp_left False.elim
  | slots => exact h.imp_left And.left
  | memory => exact h.2.imp_left And.left

theorem accessible (h : Expects allowed l.leaves.isOk) (offset : Int64) :
    Accessible allowed l offset :=
  ⟨Except.permitted_of h, fun _ _ _ _ => (Layout.permitted_access hoffset rfl _).1,
    fun _ _ _ _ => (Layout.permitted_access hoffset rfl _).2⟩

theorem Holds.writable (h : place.Holds allowed ctx l) : place.Writable allowed ctx := by
  cases place with
  | slots => trivial
  | memory =>
    exact ⟨h.1, accessible hoffset (h.2.imp_left (fun hfits => hfits.2.isOk_leaves hfits.1)) _,
      fun hscalar => (Layout.permitted_access hoffset hscalar _).2⟩
  | none => exact Failure.allowed_of h rfl

omit hoffset in
/-- A part of a place is one for what a literal has at this part. -/
theorem Holds.part {index : Nat} (h : place.Holds allowed ctx l)
    (hparts : Expects allowed (l.TakesParts parts ∧ ∀ part ∈ parts, part.leaves.isOk))
    (hm : parts[index]? = some m) :
    Except.Gives allowed (Holds allowed ctx m) (place.part index) := by
  have hboth {target : Layout} (hfits : Expects allowed (l.leaves.isOk ∧ l.Fits target)) :
      Expects allowed (target.TakesParts parts ∧ m.leaves.isOk) := by
    obtain ⟨hparts, hok⟩ | hall := hparts
    · exact hfits.imp_left (fun hfits => ⟨hparts.of_fits hfits.2, hok m (List.mem_of_getElem? hm)⟩)
    · exact .inr hall
  cases place with
  | none pos form => exact Failure.allowed_of h rfl
  | slots info held =>
    obtain ⟨hparts, hok⟩ | hall := hboth h
    · obtain ⟨target, first, hpart, hfits, -⟩ := exists_part_slots held hparts hm hok
      rw [hpart]
      exact .inl ⟨hok, hfits⟩
    · have hpermitted {α : Type} (result : Except LayoutDefect α) :=
        Except.Gives.ofLayout (@Except.permitted_of allowed _ result (.inr hall))
      rw [Place.part]
      split
      · dsimp only
        split
        · exact hall _ rfl
        · exact (hpermitted _).bind (fun _ _ => .inr hall)
      · exact (hpermitted _).bind (fun _ _ => (hpermitted _).bind (fun _ _ => .inr hall))
  | memory info address offset =>
    obtain ⟨haddress, hfits⟩ := h
    obtain ⟨hparts, hok⟩ | hall := hboth hfits
    · obtain ⟨target, _, _, hpart, hfits, hmoved⟩ := exists_part_memory hparts hm
      rw [hpart]
      obtain rfl | ⟨size, rfl⟩ := hmoved
      · exact ⟨haddress, .inl ⟨hok, hfits⟩⟩
      · exact ⟨haddress.offsetBy _ _ _, .inl ⟨hok, hfits⟩⟩
    · rw [Place.part]
      split
      · exact ⟨haddress.offsetBy _ _ _, .inr hall⟩
      · exact (Except.Gives.ofLayout (Except.permitted_of (.inr hall))).bind
          (fun _ _ => ⟨haddress, .inr hall⟩)

end Place

/-- In each role the node gives back the scratch slots that it takes, and fails for allowed reasons
only, as far as the role is one for it. -/
structure Emission.Sound (allowed : Failure → Prop) (ctx : EmitContext) (n : Node) (e : Emission) :
    Prop where
  load : Expects allowed n.layout.leaves.isOk → Balanced allowed ctx e.load
  store : ∀ place, place.Holds allowed ctx n.layout → Balanced allowed ctx (e.store place)
  place : Expects allowed n.isPlace → ∀ l, Expects allowed (l.leaves.isOk ∧ l.Fits n.layout) →
    e.place.Holds allowed ctx l
  address : Expects allowed n.layout.leaves.isOk → e.address.Balanced allowed ctx
  reach : Expects allowed n.isData → Balanced allowed ctx e.reach

namespace Emission

variable {n : Node}

theorem balanced_store (n : Node)
    (h : Expects allowed n.layout.leaves.isOk → Balanced allowed ctx (ofValue n value).load)
    {place : Place} (hplace : place.Holds allowed ctx n.layout) :
    Balanced allowed ctx (storeLoaded (ofValue n value).load place) :=
  balanced_storeLoaded (h hplace.leaves) (hplace.writable hoffset)

theorem sound_ofValue (hn : n.isPlace = false) (h : Balanced allowed ctx value) :
    (ofValue n value).Sound allowed ctx n where
  load := fun _ => h.map
  store := fun _ hplace => balanced_store hoffset n (fun _ => h.map) hplace
  place := fun hplace _ _ => hplace.imp_left (fun htrue => by rw [hn] at htrue; cases htrue)
  address := fun hok => ⟨h.map, Except.permitted_flatten hok⟩
  reach := fun hdata => .fail (Failure.allowed_of (hdata.imp_left (fun htrue => by
    rw [Node.isPlace_of_isData htrue] at hn; cases hn)) rfl)

theorem sound_ofConst32 (info : Info) (value : Int32) :
    (ofConst32 info value).Sound allowed ctx (.const32 info value) :=
  have hplain : (ofValue (.const32 info value) (pure [.const32 value])).Sound allowed ctx
      (.const32 info value) := sound_ofValue hoffset rfl .pure
  { hplain with address := fun hok => ⟨hplain.load hok, Except.permitted_flatten hok⟩ }

theorem sound_ofLocals {held : List Nat} (h : Expects allowed (held.length = info.layout.slots.length)) :
    (ofLocals info held).Sound allowed ctx (.locals info held) where
  load := fun _ => .map .pure
  store := by
    intro place hplace
    have hplain : Balanced allowed ctx (storeLoaded _ place) :=
      balanced_store hoffset (.locals info held) (fun _ => .map (.pure (a := held.map Instr.localGet))) hplace
    cases place with
    | none | slots => exact hplain
    | memory target address offset =>
      obtain ⟨haddress, hfits⟩ := hplace
      refine .ite (fun _ => hplain) (fun _ => ?_)
      refine Place.balanced_storeSlots haddress
        (Place.accessible hoffset (hfits.imp_left (fun hfits => hfits.2.isOk_leaves hfits.1)) _)
        (fun leaves hleaves hne => Failure.allowed_of ?_ rfl)
      obtain hlen | hall := h
      · refine hfits.imp_left (fun hfits => hne ?_)
        rw [hlen]
        refine Eq.trans ?_ (congrArg List.length hfits.2.slots_eq).symm
        exact (Place.length_flatten hleaves (Layout.flatten_eq (hfits.2.isOk_leaves hfits.1))).symm
      · exact .inr hall
  place := fun _ _ hfits => hfits
  address := fun hok => ⟨.map .pure, Except.permitted_flatten hok⟩
  reach := fun hdata => .fail (Failure.allowed_of (hdata.imp_left nofun) rfl)

theorem sound_ofData {addr : Node} {address : Address} (h : address.Balanced allowed ctx)
    (offset : Int64) :
    (ofData info addr address offset).Sound allowed ctx (.data info addr offset) := by
  have hload (hok : Expects allowed info.layout.leaves.isOk) :
      Balanced allowed ctx (ofValue (.data info addr offset) (loadLeaves info address offset)).load := by
    refine .map (balanced_loadLeaves h (Place.accessible hoffset hok offset) (fun tag size fields hunion =>
      Failure.allowed_of (hok.imp_left (fun hok => ?_)) rfl))
    rw [hunion] at hok
    cases hok
  refine ⟨hload, fun place hplace => ?_, fun _ _ hfits => ⟨h, hfits⟩,
    fun hok => ⟨hload hok, Except.permitted_flatten hok⟩, fun _ => ?_⟩
  · have hplain := balanced_store hoffset (.data info addr offset) hload hplace
    cases place with
    | none | slots => exact hplain
    | memory => exact .ite (fun _ => hplain) (fun _ => balanced_copyMemory hplace.1 h)
  · unfold ofData
    split
    · exact .pure
    · exact h.code.bind (fun _ => .ite (fun _ => .pure) (fun _ => .pure))

theorem sound_ofLiteral {parts : List Node} (hn : n.isPlace = false)
    (hparts : Expects allowed (n.layout.TakesParts (parts.map Node.layout) ∧
      ∀ part ∈ parts, part.layout.leaves.isOk))
    (h : ∀ part ∈ parts, part.emission.Sound allowed ctx part) :
    (ofLiteral n (Node.emissions parts)).Sound allowed ctx n := by
  have hleaves (part : Node) (hpart : part ∈ parts) : Expects allowed part.layout.leaves.isOk :=
    hparts.imp_left (fun hparts => hparts.2 part hpart)
  have hplain : (ofValue n (loadAll (Node.emissions parts))).Sound allowed ctx n := by
    refine sound_ofValue hoffset hn ?_
    rw [Node.emissions_eq]
    exact .map (.mapM (List.forall_mem_map.mpr (fun part hpart =>
      (h part hpart).load (hleaves part hpart))))
  refine { hplain with store := fun place hplace => ?_ }
  have hwhole := hplain.store place hplace
  have hstore {place : Place} (hplace : place.Holds allowed ctx n.layout) :
      Balanced allowed ctx (storeParts place 0 (Node.emissions parts)) := by
    refine balanced_storeParts (fun i e he => ?_)
    rw [Node.emissions_eq, List.getElem?_map, Option.map_eq_some_iff] at he
    obtain ⟨part, hpart, rfl⟩ := he
    rw [Nat.zero_add]
    have hlayout : (parts.map Node.layout)[i]? = some part.layout := by
      rw [List.getElem?_map, hpart]
      rfl
    exact (hplace.part (hparts.imp_left (fun hparts => ⟨hparts.1, by simpa using hparts.2⟩))
      hlayout).mono (h part (List.mem_of_getElem? hpart)).store
  cases place with
  | none => exact hwhole
  | slots info held => exact .ite (fun _ => hwhole) (fun _ => hstore hplace)
  | memory info address offset =>
    refine .ite (fun _ => hwhole) (fun _ => ?_)
    refine Address.Balanced.hold_bind hplace.1 (fun setup kept spilled m st rest hkept hst => ?_)
    have hparts : Balanced allowed ctx (storeParts (.memory info kept offset) 0 _) := hstore ⟨hkept, hplace.2⟩
    refine (hparts.runs hst).bind (fun code st₁ hst₁ => ?_)
    exact (Emit.runs_releaseScratch hst₁).bind (fun _ _ hst₂ => .pure hst₂)

omit hoffset in
theorem balanced_unaryCode {operand : Emit Code} {op : Operator} {x : Node}
    (h : Balanced allowed ctx operand) (hop : Expects allowed (info.layout.TakesUnary op x.layout)) :
    Balanced allowed ctx (unaryCode info op x operand) := by
  refine .read ?_
  split
  · exact h.map
  · exact h.map
  · exact h.bind (fun _ => .ite (fun _ => .pure) (fun _ => .pure))
  next hsub hnot hcomplement =>
    refine .fail (Failure.allowed_of (hop.imp_left (fun htakes => ?_)) rfl)
    unfold Layout.TakesUnary at htakes
    split at htakes
    · exact hsub rfl
    · exact hnot rfl
    · exact hcomplement rfl
    · exact htakes

omit hoffset in
theorem balanced_conversion {source target : Layout} (h : Expects allowed source.isScalar) :
    Balanced allowed ctx (conversion pos source target) := by
  refine .read (.ite (fun _ => .pure) (fun _ => ?_))
  split
  · exact .pure
  next hnone =>
    refine .fail (Failure.allowed_of (h.imp_left (fun hscalar => ?_)) rfl)
    obtain ⟨kind, hkind⟩ := Option.isSome_iff_exists.mp hscalar
    exact hnone kind hkind

end Emission

end Offsets

namespace Node

/-- Every branch of the node has its uses counted, and its construct around it or in the context. -/
structure Lands (ctx : EmitContext) (n : Node) : Prop where
  used : ∀ l ∈ n.targets, ctx.labels.uses (some l) ≠ 0
  enclosed : ∃ around, n.Enclosed around ∧ ∀ l ∈ around, ctx.labels.uses (some l) ≠ 0 → some l ∈ ctx.enclosing

theorem Counted.lands (h : n.Counted labels) {signExt : Bool} : n.Lands ⟨labels, signExt, []⟩ where
  used := fun l hl => Nat.ne_of_gt (Nat.lt_of_lt_of_le (List.count_pos_iff.mpr hl) (h.uses l))
  enclosed := ⟨[], h.enclosed, nofun⟩

namespace Lands

variable {n c : Node}

section

variable (h : n.Lands ctx)
include h

theorem own {l : Nat} (hl : l ∈ n.ownTargets) : some l ∈ ctx.enclosing := by
  obtain ⟨around, henclosed, haround⟩ := h.enclosed
  exact haround l ((enclosed_iff.mp henclosed).1 l hl) (h.used l (mem_targets.mpr (.inl hl)))

/-- A part lands in any context where the construct of the node can be found if it is used. -/
theorem child (hc : c ∈ n.children) {enclosing : List (Option Nat)}
    (hsub : ctx.enclosing ⊆ enclosing)
    (hlabel : ∀ l ∈ n.label?, ctx.labels.uses (some l) ≠ 0 → some l ∈ enclosing) :
    c.Lands { ctx with enclosing := enclosing } := by
  obtain ⟨around, henclosed, haround⟩ := h.enclosed
  refine ⟨fun l hl => h.used l (mem_targets.mpr (.inr ⟨c, hc, hl⟩)), n.label?.toList ++ around,
    (enclosed_iff.mp henclosed).2 c hc, fun l hl hused => ?_⟩
  rcases List.mem_append.mp hl with hl | hl
  · exact hlabel l (Option.mem_toList.mp hl) hused
  · exact hsub (haround l hl hused)

/-- A part of a node that is no construct, or of a construct without uses. -/
theorem here (hlabel : ctx.labels.uses n.label? = 0) (hc : c ∈ n.children) : c.Lands ctx :=
  h.child hc (List.Subset.refl _) (fun _ hl hused => absurd (Option.mem_def.mp hl ▸ hlabel) hused)

theorem inside (hc : c ∈ n.children) : c.Lands (ctx.inside n.label?) :=
  h.child hc (List.subset_cons_self _ _) (fun _ hl _ => Option.mem_def.mp hl ▸ (.head _))

end

end Lands

/-- Branches that land are found, in every role of a node. Where misuse is not allowed, the node has to
be one that can be emitted; and where branches may miss, they need not land. -/
theorem sound_emission (hoffset : ∀ failure, failure.Offset → allowed failure)
    (h : n.Lands ctx ∨ ∀ pos label, allowed (.code pos (.labelOutside label)))
    (hn : Expects allowed n.Emittable) : n.emission.Sound allowed ctx n := by
  induction n using childInduction generalizing ctx with
  | absent =>
    have hfail : allowed (.code .unset (.cannotLoad absent.formName)) :=
      Failure.allowed_of (hn.imp_left Emittable.isEmittable) rfl
    exact { Emission.sound_ofValue hoffset rfl (.fail hfail) with load := fun _ => .fail hfail }
  | step n hpresent ih =>
    have hown : Expects allowed n.IsEmittable := hn.imp_left Emittable.isEmittable
    have hleaves {c : Node} (hvalues : n.usesValues) (hc : c ∈ n.children) :
        Expects allowed c.layout.leaves.isOk := hn.imp_left (fun hn => hn.leaves hvalues hc)
    have here (hlabel : ctx.labels.uses n.label? = 0) (c : Node) (hc : c ∈ n.children) :
        c.emission.Sound allowed ctx c :=
      ih c hc (h.imp_left (fun h => h.here hlabel hc)) (hn.imp_left (fun hn => hn.child hc))
    have load (hlabel : ctx.labels.uses n.label? = 0) (hvalues : n.usesValues) (c : Node)
        (hc : c ∈ n.children) : Balanced allowed ctx c.emission.load :=
      (here hlabel c hc).load (hleaves hvalues hc)
    have inside (hvalues : n.usesValues) (c : Node) (hc : c ∈ n.children) :
        Balanced allowed (ctx.inside n.label?) c.emission.load :=
      (ih c hc (h.imp_left (fun h => h.inside hc)) (hn.imp_left (fun hn => hn.child hc))).load (hleaves hvalues hc)
    have depth {pos : Position} {label : Nat} (hlabel : label ∈ n.ownTargets) :
        Balanced allowed ctx (Emit.depth pos label) :=
      .depth (h.imp (fun h => h.own hlabel) (fun hall => hall pos label))
    have value {code : Emit Code} (hplace : n.isPlace = false) (hcode : Balanced allowed ctx code) :
        (Emission.ofValue n code).Sound allowed ctx n := Emission.sound_ofValue hoffset hplace hcode
    have loadAll {context' : EmitContext} {parts : List Node}
        (hparts : ∀ c ∈ parts, Balanced allowed context' c.emission.load) :
        Balanced allowed context' (Emission.loadAll (emissions parts)) := by
      rw [emissions_eq]
      exact .map (.mapM (List.forall_mem_map.mpr hparts))
    have blockType {l : Layout} (hl : Expects allowed l.leaves.isOk) :
        Balanced allowed ctx (Emit.blockType l) := .blockType (Except.permitted_flatten hl)
    cases n with
    | absent => cases hpresent
    | const32 info v => exact Emission.sound_ofConst32 hoffset info v
    | const64 | constFloat | unreachable | nop => exact value rfl .pure
    | locals info slots => exact Emission.sound_ofLocals hoffset hown
    | binary info op x y | compare info op x y =>
      have hx := load rfl rfl x (by simp)
      have hy := load rfl rfl y (by simp)
      exact value rfl (hx.bind (fun _ => hy.bind (fun _ =>
        (Balanced.ofLayout (Except.permitted_of hown)).map)))
    | unary info op x =>
      exact value rfl (Emission.balanced_unaryCode (load rfl rfl x (by simp)) hown)
    | convert info x =>
      exact value rfl ((load rfl rfl x (by simp)).bind (fun _ =>
        (Emission.balanced_conversion hown).map))
    | data info addr offset =>
      have haddr : addr ∈ (data info addr offset).children := .head _
      exact Emission.sound_ofData hoffset ((here rfl addr haddr).address (hleaves rfl haddr)) offset
    | scaledOffset info ptr index size =>
      have hptr := load rfl rfl ptr (by simp)
      have hindex := load rfl rfl index (by simp)
      exact value rfl (hptr.bind (fun _ => hindex.map))
    | ifElse info cond yes no =>
      have hcond := load rfl rfl cond cond_mem_children
      have hyes := inside rfl yes yes_mem_children
      refine value rfl (hcond.bind (fun _ => (blockType hown).bind (fun _ => ?_)))
      refine (Balanced.inside hyes).bind (fun _ => .ite (fun _ => .pure) (fun hno => ?_))
      exact (Balanced.inside (inside rfl no (no_mem_children (by simpa using hno)))).map
    | loop info label body =>
      refine value rfl (.read (.ite (fun hunused => ?_) (fun _ => ?_)))
      · exact load hunused rfl body (by simp)
      · exact (blockType hown).bind (fun _ =>
          (Balanced.inside (inside rfl body (by simp))).map)
    | block info label parts =>
      refine value rfl (.read (.ite (fun hunused => ?_) (fun _ => ?_)))
      · exact loadAll (load hunused rfl)
      · exact (blockType hown).bind (fun _ => (Balanced.inside (loadAll (inside rfl))).map)
    | seq info parts => exact value rfl (loadAll (load rfl rfl))
    | call info func name parts => exact value rfl (loadAll (load rfl rfl)).map
    | branch info label =>
      exact value rfl (depth (by simp [ownTargets])).map
    | branchIf info label cond =>
      exact value rfl ((load rfl rfl cond (by simp)).bind (fun _ => (depth (by simp [ownTargets])).map))
    | branchTable info index targets default =>
      refine value rfl ((load rfl rfl index (by simp)).bind (fun _ => ?_))
      have htargets : Balanced allowed ctx (targets.mapM (Emit.depth info.pos)) :=
        .mapM (fun l hl => depth (by simp [ownTargets, hl]))
      exact htargets.bind (fun _ => (depth (by simp [ownTargets])).map)
    | ret info x =>
      refine value rfl (.ite (fun _ => .pure) (fun hx => ?_))
      exact (load rfl rfl x (by rw [children_ret, if_neg hx]; simp)).map
    | drop info x =>
      have hx : x ∈ (drop info x).children := .head _
      exact value rfl ((load rfl rfl x hx).bind (fun _ =>
        (Balanced.ofLayout (Except.permitted_flatten (hleaves rfl hx))).map))
    | structLit info parts | arrayLit info parts =>
      refine Emission.sound_ofLiteral hoffset rfl ?_ (here rfl)
      exact hn.imp_left (fun hn => ⟨hn.isEmittable, fun c hc => hn.leaves rfl hc⟩)
    | assign info target source =>
      have ht : target ∈ (assign info target source).children := .head _
      have hv : source ∈ (assign info target source).children := by simp
      refine value rfl ((here rfl source hv).store _ ?_)
      exact (here rfl target ht).place (hown.imp_left And.left) _
        (hn.imp_left (fun hn => ⟨hn.leaves rfl hv, hn.isEmittable.2⟩))
    | addressOf info x =>
      exact value rfl ((here rfl x (by simp)).reach hown)

/-- Emitting a counted body fails by misuse only, and takes no scratch slot for good. -/
theorem Counted.load_balanced (h : n.Counted labels) (signExt : Bool) :
    Balanced Misuse ⟨labels, signExt, []⟩ n.load := by
  refine (sound_emission ?_ (.inl h.lands) (.inr (fun _ hmisuse => hmisuse))).load
    (.inr (fun _ hmisuse => hmisuse))
  rintro _ ⟨offset, rfl, -⟩
  rfl

/-- Whatever node is loaded, slots are given back once, and only signatures are added to the module. -/
theorem load_stands (n : Node) (ctx : EmitContext) (st : EmitState) :
    Steps.Runs (fun failure => ∀ defect, failure.fault ≠ .pipeline defect) ctx st n.load
      (fun _ st' => st'.Stands st.module st.scratch.live) := by
  have hmisuse (failure : Failure) (h : failure.Misuse) (defect : PipelineDefect) :
      failure.fault ≠ .pipeline defect := by
    intro hfault
    rw [Misuse, Failure.isMisuse, hfault] at h
    cases h
  refine (sound_emission ?_ (.inr fun _ _ _ h => nomatch h) (.inr hmisuse)).load (.inr hmisuse) _ st _
    (.refl st)
  rintro _ ⟨offset, rfl, -⟩ defect hfault
  cases hfault

theorem interns_of_load {ctx : EmitContext} {st st' : EmitState} {code : Code}
    (h : n.load ctx st = (.ok code, st')) : st.module.Interns st'.module := by
  have hstands := n.load_stands ctx st
  rw [Steps.Runs, h] at hstands
  exact hstands.module

/-- What simplification makes of well-formed code can be emitted, except that it may have moved an
offset out of the range of an instruction. -/
theorem load_simplified {Γ : Surroundings} {labels : Labels} {n m : Node} {changed signExt : Bool}
    {enclosing : List (Option Nat)} (hwf : n.WellFormed Γ)
    (hregular : n.every (isRegular TypeKey.kind?))
    (huses : ∀ l, n.targets.count l ≤ labels.uses (some l))
    (henclosing : ∀ l ∈ Γ.targets, some l ∈ enclosing) (h : n.simplify labels = .ok (m, changed))
    (st : EmitState) :
    (∃ code st', m.load ⟨labels, signExt, enclosing⟩ st = (.ok code, st')) ∨
      ∃ offset st', m.load ⟨labels, signExt, enclosing⟩ st =
        (.error (.layout (.memoryOffset offset)), st') ∧ ¬ (0 ≤ offset ∧ offset ≤ 0xFFFFFFFF) := by
  have hbecomes : n.Becomes labels m := ⟨changed, h⟩
  obtain ⟨hshaped, hemittable, henclosed⟩ := WellFormed.emittable (.inl hwf) hregular
  have hlands : m.Lands ⟨labels, signExt, enclosing⟩ := by
    refine ⟨fun l hl => ?_, Γ.targets, hbecomes.enclosed huses henclosed, fun l hl _ => henclosing l hl⟩
    have hcount := Nat.le_trans (hbecomes.within.targets l) (huses l)
    exact Nat.ne_of_gt (Nat.lt_of_lt_of_le (List.count_pos_iff.mpr hl) hcount)
  have hok : m.layout.leaves.isOk := (hbecomes.shaped hshaped).2.symm.1.isOk_leaves hwf.isOk_leaves
  have hbalanced := (sound_emission (fun _ hoffset => hoffset) (.inl hlands)
    (.inl (hbecomes.emittable hshaped hemittable))).load (.inl hok) _ st _ (.refl st)
  rw [Steps.Runs, ← load] at hbalanced
  split at hbalanced
  next code st' hrun => exact .inl ⟨code, st', hrun⟩
  next failure st' hrun =>
    obtain ⟨offset, rfl, hout⟩ := hbalanced
    exact .inr ⟨offset, st', hrun, hout⟩

/-- An element of a table, at a pointer in one slot, is read into another slot. -/
def elementRead (index : Int32) : Node :=
  .assign ⟨.unset, .unit⟩ (.locals long [1])
    (.data long (.scaledOffset pointer (.locals pointer [0]) (.const32 number index) 8) 0)
where
  number : Info := ⟨.unset, .index⟩
  long : Info := ⟨.unset, .scalar ⟨.builtin .i64, "i64"⟩ .i64⟩
  pointer : Info := ⟨.unset, .scalar ⟨.occurrence 0, "*i64"⟩ .pointer⟩

theorem load_simplified_elementRead :
    ∃ m changed code st', (elementRead 3).simplify .empty = .ok (m, changed) ∧
      m.load ⟨.empty, true, []⟩ ⟨.empty, .ofParams []⟩ = (.ok code, st') := by
  have h : (elementRead 3).simplify .empty = .ok (.assign ⟨.unset, .unit⟩ (.locals elementRead.long [1])
      (.data elementRead.long (.locals elementRead.pointer [0]) 24), true) := by rfl
  obtain ⟨code, st', hload⟩ | ⟨offset, st', hload, -⟩ := @load_simplified
    ⟨fun slot => [ValType.i32, .i64][slot]?, fun _ => none, .unit, []⟩ .empty (elementRead 3) _ _ true []
    ⟨rfl, rfl, ⟨rfl, rfl⟩, ⟨⟨⟨rfl, rfl⟩, rfl, rfl, rfl, rfl⟩, rfl, rfl⟩, rfl⟩
    (by decide) (fun _ => Nat.zero_le _) nofun h ⟨.empty, .ofParams []⟩
  · exact ⟨_, _, code, st', h, hload⟩
  · cases hload

/-- The offset of a far element does not fit an instruction, though the element could be read with its
address computed. -/
theorem load_simplified_far :
    (∃ code st', (elementRead 1073741824).load ⟨.empty, true, []⟩ ⟨.empty, .ofParams []⟩ = (.ok code, st')) ∧
    ∃ m changed st', (elementRead 1073741824).simplify .empty = .ok (m, changed) ∧
      m.load ⟨.empty, true, []⟩ ⟨.empty, .ofParams []⟩ = (.error (.layout (.memoryOffset 8589934592)), st') :=
  ⟨⟨_, _, rfl⟩, _, _, _, rfl, rfl⟩

end Node

end TreeWasm
