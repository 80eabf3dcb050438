import Mathlib.Data.List.Perm.Subperm
import Mathlib.Logic.Relation
import TreeWasm.Proofs.Storage.Pools

/-! # Custody of slots

The users of a pool take slots for values and give them back, in any order. At every moment each slot
that is no parameter is either free or held for exactly one value, and has the type it was taken for.
-/

open Relation (ReflTransGen)

namespace TreeWasm

open Wasm

/-- A value kept in slots. -/
structure Holding where
  layout : Layout
  slots : List Nat

/-- A pool and the values that are held in its slots. -/
structure Custody where
  pool : SlotPool
  values : List Holding

namespace Custody

/-- The slots of the values that are held. -/
def held (c : Custody) : List Nat := c.values.flatMap Holding.slots

/-- One of the values is given back. -/
def Returns (c c' : Custody) : Prop :=
  ∃ value, c.values.Perm (value :: c'.values) ∧ c'.pool = (c.pool.release value.slots).1

/-- Slots are taken for a new value, or one of the values is given back. -/
inductive Uses : Custody → Custody → Prop
  | takes {pool pool' l slots values} : pool.alloc l = .ok (pool', slots) →
      Uses ⟨pool, values⟩ ⟨pool', ⟨l, slots⟩ :: values⟩
  | returns {c c'} : Returns c c' → Uses c c'

/-- Every value has slots of the types of its layout. -/
def Typed (c : Custody) : Prop :=
  ∀ value ∈ c.values, ∃ kinds, value.layout.flatten = .ok kinds ∧
    value.slots.map c.pool.kind? = kinds.map some

/-- What is in use are the slots of the values that are held. -/
structure Sound (c : Custody) : Prop where
  pool : c.pool.Sound
  live : c.pool.live.Perm c.held
  typed : c.Typed

variable {c c' : Custody} {pool pool' : SlotPool} {rest : List Holding} {value : Holding}

theorem Uses.extends (h : Uses c c') : c.pool.Extends c'.pool := by
  cases h with
  | takes halloc => exact (SlotPool.kinds_of_alloc halloc).1
  | returns h =>
    obtain ⟨value, -, hpool⟩ := h
    exact hpool ▸ c.pool.extends_release value.slots

theorem extends_of_uses (h : ReflTransGen Uses c c') : c.pool.Extends c'.pool := by
  induction h with
  | refl => exact .refl _
  | tail _ hlast ih => exact ih.trans hlast.extends

namespace Sound

theorem of_idle (hsound : pool.Sound) (hlive : pool.live = []) : Sound ⟨pool, []⟩ :=
  ⟨hsound, hlive ▸ .refl _, nofun⟩

section

variable (h : c.Sound)
include h

/-- A value that is held can be given back, and the others stay in use. -/
theorem release (hvalue : c.values.Perm (value :: rest)) :
    (c.pool.release value.slots).2 = none ∧
      (c.pool.release value.slots).1.live.Perm (rest.flatMap Holding.slots) :=
  SlotPool.release_of_perm (h.live.trans (hvalue.flatMap_right Holding.slots))

theorem step (huses : Uses c c') : c'.Sound := by
  have hold {value : Holding} (hvalue : value ∈ c.values) : ∃ kinds,
      value.layout.flatten = .ok kinds ∧ value.slots.map c'.pool.kind? = kinds.map some := by
    obtain ⟨kinds, hflatten, hkinds⟩ := h.typed value hvalue
    exact ⟨kinds, hflatten, SlotPool.map_eq_kinds (fun _ _ => huses.extends.kind?) hkinds⟩
  cases huses with
  | takes halloc =>
    obtain ⟨hsound, hlive⟩ := h.pool.alloc halloc
    refine ⟨hsound, hlive ▸ h.live.append_left _, fun value hvalue => ?_⟩
    obtain rfl | hvalue := List.mem_cons.mp hvalue
    · exact (SlotPool.kinds_of_alloc halloc).2
    · exact hold hvalue
  | returns hreturns =>
    obtain ⟨value, hperm, hpool⟩ := hreturns
    exact ⟨hpool ▸ h.pool.release value.slots, hpool ▸ (h.release hperm).2,
      fun other hother => hold (hperm.mem_iff.mpr (.tail _ hother))⟩

theorem run (huses : ReflTransGen Uses c c') : c'.Sound := by
  induction huses with
  | refl => exact h
  | tail _ hlast ih => exact ih.step hlast

theorem range {slot : Nat} (hslot : slot ∈ c.held) :
    c.pool.first + c.pool.params ≤ slot ∧ slot < c.pool.first + c.pool.kinds.size :=
  h.pool.range slot (List.mem_append_right _ (h.live.mem_iff.mpr hslot))

theorem distinct : c.held.Nodup := h.live.nodup_iff.mp (List.nodup_append.mp h.pool.distinct).2.1

theorem perm : (c.pool.free ++ c.held).Perm
    (List.range' (c.pool.first + c.pool.params) (c.pool.kinds.size - c.pool.params)) := by
  have hperm := h.live.append_left c.pool.free
  have hfull := h.pool.full
  refine (List.subperm_of_subset ?_ fun slot hslot => ?_).perm_of_length_le ?_
  · exact hperm.nodup_iff.mp h.pool.distinct
  · have hrange := h.pool.range slot (hperm.mem_iff.mpr hslot)
    rw [List.mem_range'_1]
    omega
  · rw [List.length_range', ← hperm.length_eq]
    omega

/-- Nothing comes into use while values are only given back. -/
theorem held_of_returns (hreturns : ReflTransGen Returns c c') : c'.Sound ∧ c'.held ⊆ c.held := by
  induction hreturns with
  | refl => exact ⟨h, List.Subset.refl _⟩
  | tail _ hlast ih =>
    refine ⟨ih.1.step (.returns hlast), List.Subset.trans (fun slot hslot => ?_) ih.2⟩
    obtain ⟨value, hperm, -⟩ := hlast
    rw [held, (hperm.flatMap_right Holding.slots).mem_iff, List.flatMap_cons]
    exact List.mem_append_right _ hslot

/-- A value that has been given back is refused when it is given back again. -/
theorem refuses (hvalue : c.values.Perm (value :: rest))
    (hreturns : ReflTransGen Returns ⟨(c.pool.release value.slots).1, rest⟩ c') :
    (c'.pool.release value.slots).2 = value.slots.head? := by
  obtain ⟨hsound, hsubset⟩ := (h.step (.returns ⟨value, hvalue, rfl⟩)).held_of_returns hreturns
  cases hslots : value.slots with
  | nil => rfl
  | cons slot slots =>
    have hdistinct := (hvalue.flatMap_right Holding.slots).nodup_iff.mp h.distinct
    rw [List.flatMap_cons, hslots] at hdistinct
    have hgone : slot ∉ c'.pool.live := fun hlive =>
      (List.nodup_append.mp hdistinct).2.2 slot (.head _) slot (hsubset (hsound.live.mem_iff.mp hlive)) rfl
    rw [SlotPool.release, if_neg hgone]
    rfl

end

end Sound

/-- What the users of a pool can rely on. -/
structure Orderly (c : Custody) : Prop where
  distinct : c.held.Nodup
  noParams : ∀ slot ∈ c.held, slot ∉ c.pool.paramSlots
  bound : ∀ slot ∈ c.held, slot < c.pool.first + c.pool.kinds.size
  divided : (c.pool.free ++ c.held).Perm
    (List.range' (c.pool.first + c.pool.params) (c.pool.kinds.size - c.pool.params))
  typed : c.Typed
  live : c.pool.liveCount = c.held.length

theorem Sound.orderly (h : c.Sound) : c.Orderly := by
  refine ⟨h.distinct, fun slot hslot hparam => ?_, fun _ hslot => (h.range hslot).2, h.perm, h.typed,
    h.live.length_eq⟩
  obtain ⟨i, hi, rfl⟩ := List.mem_map.mp hparam
  have hrange := (h.range hslot).1
  rw [List.mem_range] at hi
  omega

/-- However a pool is used, the values that are held have slots of their own, of the types they were
taken for and for good. A value can be given back once, and the slots of a scratch pool come after all
slots of the pool it is made from. -/
theorem orderly_of_uses (params : List ValType) (h : ReflTransGen Uses ⟨.ofParams params, []⟩ c) :
    c.Orderly ∧
      (∀ c', ReflTransGen Uses c c' →
        ∀ slot kind, c.pool.kind? slot = some kind → c'.pool.kind? slot = some kind) ∧
      (∀ value rest, c.values.Perm (value :: rest) →
        (c.pool.release value.slots).2 = none ∧
          ∀ c', ReflTransGen Returns ⟨(c.pool.release value.slots).1, rest⟩ c' →
            (c'.pool.release value.slots).2 = value.slots.head?) ∧
      ∀ scratch, ReflTransGen Uses ⟨c.pool.scratch, []⟩ scratch →
        scratch.Orderly ∧ ∀ slot ∈ scratch.held, c.pool.first + c.pool.kinds.size ≤ slot := by
  have hsound : c.Sound := (Sound.of_idle (.ofParams params) rfl).run h
  refine ⟨hsound.orderly, fun c' huses slot kind => (extends_of_uses huses).kind?, ?_, ?_⟩
  · exact fun value rest hvalue => ⟨(hsound.release hvalue).1, fun c' => hsound.refuses hvalue⟩
  · intro scratch huses
    have hidle : c.pool.scratch.Sound := ⟨List.nodup_nil, nofun, rfl⟩
    have hscratch : scratch.Sound := (Sound.of_idle hidle rfl).run huses
    refine ⟨hscratch.orderly, fun slot hslot => ?_⟩
    have hfirst : scratch.pool.first = c.pool.first + c.pool.kinds.size := (extends_of_uses huses).first
    have hrange := (hscratch.range hslot).1
    omega

/-- After a parameter, a word and a long are taken, and the word is given back. -/
theorem orderly_of_uses_wordReturned :
    let word : Layout := .scalar ⟨.builtin .i32, "i32"⟩ .i32
    let long : Layout := .scalar ⟨.builtin .i64, "i64"⟩ .i64
    let c : Custody := ⟨⟨0, 1, #[.i32, .i32, .i64], [1], [2]⟩, [⟨long, [2]⟩]⟩
    ReflTransGen Uses ⟨.ofParams [.i32], []⟩ c ∧ c.Orderly ∧ (c.pool.release [2]).2 = none ∧
      ((c.pool.release [2]).1.release [2]).2 = some 2 ∧
      (c.pool.alloc word).toOption.map Prod.snd = some [1] := by
  intro word long c
  have huses : ReflTransGen Uses ⟨.ofParams [.i32], []⟩ c :=
    ((ReflTransGen.single (.takes rfl)).tail (.takes rfl)).tail (.returns ⟨⟨word, [1]⟩, .swap _ _ _, rfl⟩)
  obtain ⟨horderly, -, hreleases, -⟩ := orderly_of_uses [.i32] huses
  obtain ⟨hfirst, hagain⟩ := hreleases ⟨long, [2]⟩ [] (.refl _)
  exact ⟨huses, horderly, hfirst, hagain _ .refl, rfl⟩

end Custody

end TreeWasm
