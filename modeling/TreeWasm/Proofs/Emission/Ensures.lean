import Mathlib.Data.List.Forall2
import TreeWasm.Proofs.Binary.Indices
import TreeWasm.Proofs.Emission.Accesses
import TreeWasm.Proofs.Meaning.Alike
import TreeWasm.Proofs.Storage.Pools
import TreeWasm.Proofs.Validation.Rules

/-! # What successful emission ensures

Emission only ever adds signatures and scratch slots. What holds of emitted code under the tables of
the state it leaves therefore holds under the tables of the finished function. `Emit.Ensures` says
so of one emission, and its rules follow the steps that emissions are made of.
-/

namespace TreeWasm

open Wasm

namespace EmitState

/-- The second state has all signatures and scratch slots of the first. -/
structure Extends (st st' : EmitState) : Prop where
  types : st.module.types <+: st'.module.types
  scratch : st.scratch.Extends st'.scratch

namespace Extends

variable {st st' st'' : EmitState}

theorem refl (st : EmitState) : st.Extends st := ⟨List.prefix_refl _, .refl _⟩

theorem trans (h : st.Extends st') (h' : st'.Extends st'') : st.Extends st'' :=
  ⟨h.types.trans h'.types, h.scratch.trans h'.scratch⟩

end Extends

end EmitState

namespace Tables

variable {st : EmitState}

/-- The tables have the signatures and scratch slots of a state. -/
structure Has (tables : Tables) (st : EmitState) : Prop where
  types : st.module.types <+: tables.types
  slots : ∀ slot kind, st.scratch.kind? slot = some kind → tables.slots slot = some kind

theorem Has.of_extends {tables : Tables} {st' : EmitState} (h : tables.Has st')
    (hextends : st.Extends st') : tables.Has st :=
  ⟨hextends.types.trans h.types, fun slot kind hkind => h.slots slot kind (hextends.scratch.kind? hkind)⟩

end Tables

namespace Emit

variable {α β : Type} {ctx : EmitContext}

/-- Whenever an emission succeeds it extends the state, and its result is right under all tables
that have the new state. -/
def Ensures (ctx : EmitContext) (x : Emit α) (post : α → Tables → Prop) : Prop :=
  ∀ st a st', x ctx st = (.ok a, st') → st.Extends st' ∧ ∀ tables : Tables, tables.Has st' → post a tables

namespace Ensures

variable {x : Emit α} {P P' : α → Tables → Prop} {Q : β → Tables → Prop} {defect : CodeDefect}
  {pos : Position} {f : α → Emit β}

theorem mono (h : Ensures ctx x P) (himp : ∀ a tables, P a tables → P' a tables) : Ensures ctx x P' := by
  intro st a st' hrun
  obtain ⟨hextends, hpost⟩ := h st a st' hrun
  exact ⟨hextends, fun tables hhas => himp a tables (hpost tables hhas)⟩

theorem pure {a : α} (h : ∀ tables, P a tables) : Ensures ctx (Pure.pure a) P := by
  rintro st _ _ ⟨⟩
  exact ⟨.refl st, fun tables _ => h tables⟩

theorem throw {failure : Failure} : Ensures ctx (throw failure : Emit α) P := by
  rintro st a st' ⟨⟩

theorem fail : Ensures ctx (Emit.fail pos defect : Emit α) P := throw

theorem fail_bind : Ensures ctx (Emit.fail pos defect >>= f) Q := by
  rintro st a st' ⟨⟩

/-- What the first step ensures is known after the second one, and without tables before it. -/
theorem bind_of (hx : Ensures ctx x P)
    (hf : ∀ a, (∃ tables, P a tables) → Ensures ctx (f a) (fun b tables => P a tables → Q b tables)) :
    Ensures ctx (x >>= f) Q := by
  intro st b st'' hrun
  obtain ⟨a, st', hfirst, hrest⟩ := Steps.bind_eq_ok hrun
  obtain ⟨hextends, hpost⟩ := hx st a st' hfirst
  have hhas : Tables.Has ⟨st'.module.types, st'.scratch.kind?⟩ st' := ⟨List.prefix_refl _, fun _ _ h => h⟩
  obtain ⟨hextends', hpost'⟩ := hf a ⟨_, hpost _ hhas⟩ st' b st'' hrest
  refine ⟨hextends.trans hextends', fun tables hhas => ?_⟩
  exact hpost' tables hhas (hpost tables (hhas.of_extends hextends'))

theorem bind (hx : Ensures ctx x P)
    (hf : ∀ a, Ensures ctx (f a) (fun b tables => P a tables → Q b tables)) :
    Ensures ctx (x >>= f) Q :=
  hx.bind_of (fun a _ => hf a)

/-- The rest of an emission that only reshapes what was emitted. -/
theorem map {f : α → β} (hx : Ensures ctx x (fun a tables => Q (f a) tables)) :
    Ensures ctx (x >>= fun a => Pure.pure (f a)) Q :=
  hx.bind (fun _ => .pure (fun _ h => h))

theorem read : Ensures ctx (MonadReader.read : Emit EmitContext) (fun c _ => c = ctx) := by
  rintro st _ _ ⟨⟩
  exact ⟨.refl st, fun _ _ => rfl⟩

theorem ofLayout {result : Except LayoutDefect α} :
    Ensures ctx (Emit.ofLayout result) (fun a _ => result = .ok a) := by
  cases result with
  | ok a => exact .pure (fun _ => rfl)
  | error defect => exact throw

theorem inside {label : Option Nat}
    (h : Ensures { ctx with enclosing := label :: ctx.enclosing } x P) :
    Ensures ctx (Emit.inside label x) P :=
  h

theorem depth {label : Nat} :
    Ensures ctx (Emit.depth pos label) (fun d _ => ctx.enclosing.findIdx? (· == some label) = some d) := by
  refine read.bind_of (fun c hc => ?_)
  obtain ⟨_, rfl⟩ := hc
  split
  next d hd => exact .pure (fun _ _ => hd)
  · exact fail

theorem mapM {γ : Type} {f : γ → Emit α} {R : γ → α → Tables → Prop} (items : List γ)
    (h : ∀ item ∈ items, Ensures ctx (f item) (R item)) :
    Ensures ctx (items.mapM f)
      (fun results tables => List.Forall₂ (fun item a => R item a tables) items results) := by
  induction items with
  | nil => exact .pure (fun _ => .nil)
  | cons item rest ih =>
    rw [List.mapM_cons]
    refine (h item (.head _)).bind (fun a => ?_)
    refine (ih (fun other hother => h other (.tail _ hother))).bind (fun more => ?_)
    exact .pure (fun _ hmore ha => .cons ha hmore)

end Ensures

end Emit

/-- The annotation of a construct stands for the slots of its layout. -/
theorem Layout.signature?_blockType {l : Layout} {m m' : Module} {type : BlockType}
    (h : l.blockType m = .ok (m', type)) :
    l.leaves.isOk ∧ m.types <+: m'.types ∧
      ∀ types, m'.types <+: types → Frame.signature? types type = some ⟨[], l.slots⟩ := by
  unfold blockType at h
  cases hflatten : l.flatten with
  | error defect =>
    rw [hflatten] at h
    cases h
  | ok slots =>
    obtain ⟨hok, hslots⟩ := slots_of_flatten hflatten
    rw [hflatten] at h
    simp only [Except.map] at h
    rw [hslots]
    refine ⟨hok, ?_⟩
    split at h
    · cases h
      exact ⟨List.prefix_refl _, fun _ _ => rfl⟩
    · cases h
      exact ⟨List.prefix_refl _, fun _ _ => rfl⟩
    · cases h
      obtain ⟨hgrows, hindex⟩ := m.intern_spec ⟨[], slots⟩
      exact ⟨hgrows, fun _ htypes => getElem?_of_prefix htypes hindex⟩

namespace Emit.Ensures

variable {ctx : EmitContext}

theorem blockType {l : Layout} :
    Ensures ctx (Emit.blockType l) (fun type tables =>
      l.leaves.isOk ∧ Frame.signature? tables.types type = some ⟨[], l.slots⟩) := by
  intro st type st' hrun
  rw [Emit.blockType_eq] at hrun
  split at hrun
  next module type' hblock =>
    cases hrun
    obtain ⟨hok, htypes, hsignature⟩ := Layout.signature?_blockType hblock
    exact ⟨⟨htypes, .refl _⟩, fun tables hhas => ⟨hok, hsignature _ hhas.types⟩⟩
  · cases hrun

/-- Scratch slots have the types of the layout they are taken for. -/
theorem allocScratch {l : Layout} :
    Ensures ctx (Emit.allocScratch l) (fun slots tables =>
      l.leaves.isOk ∧ slots.map tables.slots = l.slots.map some) := by
  intro st slots st' hrun
  rw [Emit.allocScratch_eq] at hrun
  split at hrun
  next scratch slots' halloc =>
    cases hrun
    obtain ⟨hextends, kinds, hflatten, hkinds⟩ := SlotPool.kinds_of_alloc halloc
    obtain ⟨hok, hslots⟩ := Layout.slots_of_flatten hflatten
    refine ⟨⟨List.prefix_refl _, hextends⟩, fun tables hhas => ⟨hok, ?_⟩⟩
    rw [hslots]
    exact SlotPool.map_eq_kinds hhas.slots hkinds
  · cases hrun

theorem releaseScratch {slots : List Nat} : Ensures ctx (Emit.releaseScratch slots) (fun _ _ => True) := by
  intro st a st' hrun
  rw [Emit.releaseScratch_eq] at hrun
  obtain rfl := congrArg Prod.snd hrun
  exact ⟨⟨List.prefix_refl _, st.scratch.extends_release slots⟩, fun _ _ => trivial⟩

end Emit.Ensures

end TreeWasm
