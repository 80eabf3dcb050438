import TreeWasm.Proofs.Binary.Indices
import TreeWasm.Proofs.Emission.Accesses
import TreeWasm.Proofs.Storage.Pools

/-! # How emission can fail

Emission takes scratch slots for addresses and values that are used more than once, and gives them back
where it is done with them. `Emit.Balanced` says of an emission that after it the same scratch slots are
in use as before, that it has changed nothing of the module but its signatures, and that it fails only
for reasons from a given set; slots are never given back twice.

The rules follow the steps that emissions are made of. Each asks that the failures of its own steps are
allowed, so that the rules serve both to exclude some failures and to exclude all of them.
-/

namespace TreeWasm

open Wasm

variable {result : Except LayoutDefect α} {failure : Failure} {rest : List Nat} {l : Layout}
  {pos : Position} {β : Type} {uses : Int} {parts : List Emission}
  {f : Code × Address × List Nat → Emit β}

/-- A failed computation of layouts fails for an allowed reason. -/
def Except.Permitted {α : Type} (allowed : Failure → Prop) (result : Except LayoutDefect α) : Prop :=
  ∀ defect, result = .error defect → allowed (.layout defect)

/-- A result has a property, or there is none for an allowed reason. -/
def Except.Gives {α : Type} (allowed : Failure → Prop) (P : α → Prop) : Except Failure α → Prop
  | .ok a => P a
  | .error failure => allowed failure

namespace Except.Gives

variable {α β : Type} {allowed : Failure → Prop} {P : α → Prop} {Q : β → Prop}

theorem mono {P' : α → Prop} {result : Except Failure α} (h : Gives allowed P result)
    (himp : ∀ a, P a → P' a) : Gives allowed P' result := by
  cases result with
  | ok a => exact himp a h
  | error => exact h

theorem bind {result : Except Failure α} {f : α → Except Failure β} (h : Gives allowed P result)
    (hf : ∀ a, P a → Gives allowed Q (f a)) : Gives allowed Q (result >>= f) := by
  cases result with
  | ok a => exact hf a h
  | error => exact h

theorem ofLayout (h : Permitted allowed result) :
    Gives allowed (fun a => result = .ok a) (result.mapError Failure.layout) := by
  cases result with
  | ok => exact rfl
  | error defect => exact h defect rfl

end Except.Gives

/-- The second module differs from the first at most in signatures that it has in addition. -/
structure Wasm.Module.Interns (m m' : Module) : Prop where
  module : m' = { m with types := m'.types, interned := m'.interned }
  types : m.types <+: m'.types

theorem Wasm.Module.Interns.trans {m m' m'' : Module} (h : m.Interns m') (h' : m'.Interns m'') :
    m.Interns m'' :=
  ⟨by rw [h'.module, h.module], h.types.trans h'.types⟩

/-- The given scratch slots are in use, and the module is the given one but for more signatures. -/
structure EmitState.Stands (m : Module) (live : List Nat) (st : EmitState) : Prop where
  scratch : st.scratch.live.Perm live
  module : m.Interns st.module

theorem EmitState.Stands.refl (st : EmitState) : st.Stands st.module st.scratch.live :=
  ⟨.refl _, rfl, List.prefix_refl _⟩

namespace Emit

open Steps (Runs)

variable {α β : Type} {allowed : Failure → Prop} {ctx : EmitContext} {st : EmitState} {m : Module}

/-- The step gives back the scratch slots that it takes, adds nothing but signatures to the module, and
fails for allowed reasons only. -/
def Balanced (allowed : Failure → Prop) (ctx : EmitContext) (x : Emit α) : Prop :=
  ∀ m st rest, st.Stands m rest → Runs allowed ctx st x (fun _ st' => st'.Stands m rest)

theorem runs_ofLayout (h : Except.Permitted allowed result) :
    Runs allowed ctx st (Emit.ofLayout result) (fun a st' => result = .ok a ∧ st' = st) := by
  cases result with
  | ok a => exact .pure ⟨rfl, rfl⟩
  | error defect => exact .throw (h defect rfl)

theorem Balanced.runs {x : Emit α} (h : Balanced allowed ctx x) (hst : st.Stands m rest) :
    Runs allowed ctx st x (fun _ st' => st'.Stands m rest) :=
  h m st rest hst

/-! ## Scratch slots -/

theorem runs_allocScratch (hst : st.Stands m rest) (hl : Except.Permitted allowed l.flatten) :
    Runs allowed ctx st (allocScratch l) (fun slots st' =>
      st'.Stands m (slots ++ rest) ∧ ∃ kinds, l.flatten = .ok kinds ∧ slots.length = kinds.length) := by
  rw [Runs, allocScratch_eq, SlotPool.alloc]
  cases hflat : l.flatten with
  | error defect => exact hl defect hflat
  | ok kinds =>
    refine ⟨⟨?_, hst.module⟩, kinds, rfl, SlotPool.length_pickAll _ _⟩
    rw [SlotPool.live_pickAll]
    exact hst.scratch.append_left _

theorem runs_releaseScratch {slots : List Nat} (hst : st.Stands m (slots ++ rest)) :
    Runs allowed ctx st (releaseScratch slots) (fun _ st' => st'.Stands m rest) := by
  obtain ⟨hnone, hperm⟩ := SlotPool.release_of_perm hst.scratch
  rw [Runs, releaseScratch_eq, hnone]
  exact ⟨hperm, hst.module⟩

/-! ## Steps without scratch slots -/

namespace Balanced

variable {x : Emit α} {f : α → Emit β}

theorem pure {a : α} : Balanced allowed ctx (Pure.pure a) := fun _ _ _ hst => hst

theorem throw (h : allowed failure) : Balanced allowed ctx (throw failure : Emit α) := fun _ _ _ _ => h

theorem fail {defect : CodeDefect} (h : allowed (.code pos defect)) :
    Balanced allowed ctx (Emit.fail pos defect : Emit α) :=
  throw h

theorem bind (hx : Balanced allowed ctx x) (hf : ∀ a, Balanced allowed ctx (f a)) :
    Balanced allowed ctx (x >>= f) :=
  fun _ _ _ hst => (hx.runs hst).bind (fun a _ hst' => (hf a).runs hst')

/-- The rest of an emission that only reshapes what was emitted. -/
theorem map {f : α → β} (hx : Balanced allowed ctx x) : Balanced allowed ctx (do return f (← x)) :=
  hx.bind (fun _ => pure)

theorem ite {c : Prop} [Decidable c] {y : Emit α} (hx : c → Balanced allowed ctx x)
    (hy : ¬ c → Balanced allowed ctx y) : Balanced allowed ctx (if c then x else y) := by
  split
  next hc => exact hx hc
  next hc => exact hy hc

theorem read {f : EmitContext → Emit β} (h : Balanced allowed ctx (f ctx)) :
    Balanced allowed ctx (MonadReader.read >>= f) :=
  h

theorem inside {label : Option Nat}
    (h : Balanced allowed { ctx with enclosing := label :: ctx.enclosing } x) :
    Balanced allowed ctx (Emit.inside label x) :=
  h

theorem ofLayout (h : Except.Permitted allowed result) : Balanced allowed ctx (Emit.ofLayout result) :=
  fun _ _ _ hst => (runs_ofLayout h).mono (fun _ _ h => h.2 ▸ hst)

/-- What a layout gives is known in the rest of an emission. -/
theorem ofLayout_bind {result : Except LayoutDefect α} (h : Except.Permitted allowed result)
    (hf : ∀ a, result = .ok a → Balanced allowed ctx (f a)) :
    Balanced allowed ctx (Emit.ofLayout result >>= f) :=
  fun _ _ _ hst => (runs_ofLayout h).bind (fun a _ ha => (hf a ha.1).runs (ha.2 ▸ hst))

theorem blockType (h : Except.Permitted allowed l.flatten) : Balanced allowed ctx (Emit.blockType l) := by
  intro m st rest hst
  rw [Runs, blockType_eq, Layout.blockType]
  cases hflat : l.flatten with
  | error defect => exact h defect hflat
  | ok kinds =>
    rcases kinds with _ | ⟨first, _ | ⟨second, more⟩⟩
    · exact hst
    · exact hst
    · have hspec := st.module.intern_spec ⟨[], first :: second :: more⟩
      exact ⟨hst.scratch, hst.module.trans ⟨st.module.intern_frame _, hspec.1⟩⟩

/-- A branch finds its label among the constructs around, unless it may miss it. -/
theorem depth {label : Nat} (h : some label ∈ ctx.enclosing ∨ allowed (.code pos (.labelOutside label))) :
    Balanced allowed ctx (Emit.depth pos label) := by
  refine read ?_
  split
  · exact pure
  next hnone =>
    rw [List.findIdx?_eq_none_iff] at hnone
    exact h.elim (fun h => absurd (hnone _ h) (by simp)) fail

theorem mapM {γ : Type} {f : γ → Emit α} {items : List γ}
    (h : ∀ item ∈ items, Balanced allowed ctx (f item)) :
    Balanced allowed ctx (items.mapM f) := by
  induction items with
  | nil => exact pure
  | cons item rest ih =>
    rw [List.mapM_cons]
    rw [List.forall_mem_cons] at h
    exact h.1.bind (fun a => (ih h.2).bind (fun _ => pure))

end Balanced

end Emit

open Emit (Balanced)

open Steps (Runs)

variable {allowed : Failure → Prop} {ctx : EmitContext} {st : EmitState} {m : Module}

/-! ## Addresses and places -/

/-- The code of an address gives back what it takes, and the address can be kept in scratch slots. -/
structure Address.Balanced (allowed : Failure → Prop) (ctx : EmitContext) (address : Address) :
    Prop where
  code : Emit.Balanced allowed ctx address.code
  layout : Except.Permitted allowed address.layout.flatten

namespace Address

variable {address : Address}

section

variable (h : address.Balanced allowed ctx)
include h

theorem Balanced.offsetBy (pos : Position) (index : Int32) (size : Int64) :
    (address.offsetBy pos index size).Balanced allowed ctx :=
  ⟨h.code.bind (fun _ => .pure), h.layout⟩

/-- An address is kept for the rest of an emission, which gives back the slots it is kept in. -/
theorem Balanced.runs_hold {post : β → EmitState → Prop} (hst : st.Stands m rest)
    (hf : ∀ setup kept spilled st', kept.Balanced allowed ctx → st'.Stands m (spilled ++ rest) →
      Runs allowed ctx st' (f (setup, kept, spilled)) post) :
    Runs allowed ctx st (address.hold uses >>= f) post := by
  unfold hold
  split
  · exact hf [] address [] st h hst
  · simp only [bind_assoc, pure_bind]
    refine (Emit.runs_allocScratch hst h.layout).bind ?_
    rintro slots st₁ ⟨hst₁, -⟩
    refine (h.code.runs hst₁).bind (fun code st₂ hst₂ => ?_)
    exact hf _ _ slots st₂ ⟨.pure, h.layout⟩ hst₂

theorem Balanced.hold_bind
    (hf : ∀ setup kept spilled m st rest, kept.Balanced allowed ctx → st.Stands m (spilled ++ rest) →
      Runs allowed ctx st (f (setup, kept, spilled)) (fun _ st' => st'.Stands m rest)) :
    Emit.Balanced allowed ctx (address.hold uses >>= f) :=
  fun m _ rest hst => h.runs_hold hst (fun setup kept spilled st' hkept hst' =>
    hf setup kept spilled m st' rest hkept hst')

theorem Balanced.accesses {γ : Type} {items : List γ} {access : Code → γ → Emit Code}
    (haccess : ∀ code, ∀ item ∈ items, Emit.Balanced allowed ctx (access code item)) :
    Emit.Balanced allowed ctx (address.accesses uses items access) := by
  refine h.hold_bind (fun setup kept spilled m st rest hkept hst => ?_)
  have hcodes : Emit.Balanced allowed ctx (items.mapM (fun item => do access (← kept.code) item)) :=
    .mapM (fun item hitem => hkept.code.bind (fun code => haccess code item hitem))
  refine (hcodes.runs hst).bind (fun codes st₁ hst₁ => ?_)
  exact (Emit.runs_releaseScratch hst₁).bind (fun _ _ hst₂ => .pure hst₂)

end

end Address

namespace Place

/-- The leaves of a layout can be accessed at an offset. -/
structure Accessible (allowed : Failure → Prop) (l : Layout) (offset : Int64) : Prop where
  leaves : Except.Permitted allowed l.leaves
  load : ∀ leaves, l.leaves = .ok leaves → ∀ leaf ∈ leaves,
    Except.Permitted allowed (leaf.layout.load (offset + leaf.offset))
  store : ∀ leaves, l.leaves = .ok leaves → ∀ leaf ∈ leaves,
    Except.Permitted allowed (leaf.layout.store (offset + leaf.offset))

variable {info : Info} {address : Address} {offset : Int64} {held : List Nat}

theorem balanced_storeSlots (h : address.Balanced allowed ctx)
    (haccess : Accessible allowed info.layout offset)
    (hcount : ∀ leaves, info.layout.leaves = .ok leaves → leaves.length ≠ held.length →
      allowed (.code info.pos (.slotCount held.length info.layout.text))) :
    Balanced allowed ctx (storeSlots info address offset held) := by
  rw [storeSlots_eq]
  refine .ofLayout_bind haccess.leaves (fun leaves hleaves => ?_)
  split
  next hne => exact fun _ _ _ _ => .throw_bind (hcount leaves hleaves hne)
  · exact h.accesses (fun code item hitem => .map (.ofLayout
      (haccess.store leaves hleaves item.1 (List.of_mem_zip hitem).1)))

/-- A place that a value on the stack can be written to. -/
def Writable (allowed : Failure → Prop) (ctx : EmitContext) : Place → Prop
  | .slots _ _ => True
  | .memory info address offset =>
    address.Balanced allowed ctx ∧ Accessible allowed info.layout offset ∧
      (info.layout.isScalar → Except.Permitted allowed (info.layout.store offset))
  | .none pos form => allowed (.code pos (.notAssignable form))

theorem permitted_flatten (h : Except.Permitted allowed l.leaves) : Except.Permitted allowed l.flatten := by
  intro defect hdefect
  refine h defect ?_
  rw [Layout.flatten] at hdefect
  cases hleaves : l.leaves with
  | error defect' =>
    rw [hleaves] at hdefect
    cases hdefect
    rfl
  | ok leaves =>
    rw [hleaves] at hdefect
    cases hdefect

theorem length_flatten {leaves : List Leaf} {kinds : List ValType} (hleaves : l.leaves = .ok leaves)
    (hkinds : l.flatten = .ok kinds) :
    kinds.length = leaves.length := by
  rw [Layout.flatten, hleaves] at hkinds
  cases hkinds
  exact List.length_map _

theorem balanced_consume {place : Place} (h : place.Writable allowed ctx) :
    Balanced allowed ctx place.consume := by
  cases place with
  | none pos form => exact .fail h
  | slots info held => exact .pure
  | memory info address offset =>
    obtain ⟨haddress, haccess, -⟩ := h
    intro m st rest hst
    refine (Emit.runs_allocScratch hst (permitted_flatten haccess.leaves)).bind ?_
    rintro held st₁ ⟨hst₁, kinds, hkinds, hlen⟩
    have hstore : Balanced allowed ctx (storeSlots info address offset held) := by
      refine balanced_storeSlots haddress haccess (fun leaves hleaves hne => absurd ?_ hne)
      rw [hlen, length_flatten hleaves hkinds]
    refine (hstore.runs hst₁).bind (fun code st₂ hst₂ => ?_)
    exact (Emit.runs_releaseScratch hst₂).bind (fun _ _ hst₃ => .pure hst₃)

end Place

theorem balanced_copyMemory {size : Int64} {target source : Address} {targetOffset sourceOffset : Int64}
    (ht : target.Balanced allowed ctx) (hs : source.Balanced allowed ctx) :
    Balanced allowed ctx (copyMemory size target targetOffset source sourceOffset) := by
  refine ht.hold_bind (fun targetSetup target targetSlots m st rest ht hst => ?_)
  refine hs.runs_hold hst (fun sourceSetup source sourceSlots st₁ hs hst₁ => ?_)
  have hcopies : Balanced allowed ctx ((Transfer.covering size.toInt.toNat).mapM (fun t => do
      let targetCode ← target.code
      let sourceCode ← source.code
      let offset := Int64.ofNat t.offset
      return targetCode ++ sourceCode ++
        [.load t.loadOp (immediate (sourceOffset + offset)),
          .store t.storeOp (immediate (targetOffset + offset))])) :=
    .mapM (fun _ _ => ht.code.bind (fun _ => hs.code.map))
  refine (hcopies.runs hst₁).bind (fun copies st₂ hst₂ => ?_)
  refine (Emit.runs_releaseScratch hst₂).bind (fun _ st₃ hst₃ => ?_)
  exact (Emit.runs_releaseScratch hst₃).bind (fun _ _ hst₄ => .pure hst₄)

/-! ## The roles of nodes -/

namespace Emission

variable {place : Place} {load : Emit Code}

theorem balanced_storeLoaded (hload : Balanced allowed ctx load)
    (hplace : place.Writable allowed ctx) :
    Balanced allowed ctx (storeLoaded load place) := by
  cases place with
  | none pos form => exact .fail hplace
  | slots info held => exact hload.map
  | memory info address offset =>
    have ⟨haddress, _, hscalar⟩ := hplace
    refine .ite (fun h => ?_) (fun _ => ?_)
    · exact haddress.code.bind (fun _ => hload.bind (fun _ => .map (.ofLayout (hscalar h))))
    · exact hload.bind (fun _ => .map (Place.balanced_consume hplace))

/-- Parts are stored one after the other, each where the place has a part for it. -/
theorem balanced_storeParts {index : Nat}
    (h : ∀ i part, parts[i]? = some part →
      Except.Gives allowed (fun target => Balanced allowed ctx (part.store target)) (place.part (index + i))) :
    Balanced allowed ctx (storeParts place index parts) := by
  induction parts generalizing index with
  | nil => exact .pure
  | cons part rest ih =>
    have hfirst := h 0 part rfl
    rw [Nat.add_zero] at hfirst
    rw [storeParts]
    split
    next failure hpart =>
      rw [hpart] at hfirst
      exact .throw hfirst
    next target hpart =>
      rw [hpart] at hfirst
      refine Emit.Balanced.bind hfirst (fun _ => .map (ih (fun i part hpart => ?_)))
      rw [Nat.add_assoc, Nat.add_comm 1]
      exact h (i + 1) part hpart

theorem balanced_loadLeaves {info : Info} {address : Address} {offset : Int64}
    (h : address.Balanced allowed ctx) (haccess : Place.Accessible allowed info.layout offset)
    (hunion : ∀ tag size fields, info.layout = .struct tag true size fields →
      allowed (.code info.pos (.unionLoad tag.text))) :
    Balanced allowed ctx (loadLeaves info address offset) := by
  rw [loadLeaves_eq]
  split
  next tag size fields hlayout => exact fun _ _ _ _ => .throw_bind (hunion tag size fields hlayout)
  · exact .ofLayout_bind haccess.leaves (fun leaves hleaves => h.accesses (fun code leaf hleaf =>
      .map (.ofLayout (haccess.load leaves hleaves leaf hleaf))))

end Emission

end TreeWasm
