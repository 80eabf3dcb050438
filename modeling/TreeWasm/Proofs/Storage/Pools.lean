import TreeWasm.Proofs.Steps
import TreeWasm.Storage.Slots

/-! # Pools of slots

A pool only ever gets more slots. Slots that are handed out are different from all that are in use, and
from parameters: `SlotPool.SoundFor` is kept when slots are picked and when they are given back.
-/

namespace TreeWasm

open Wasm

/-- What stands in a list stands at the same place in a longer one. -/
theorem getElem?_of_prefix {α : Type} {l l' : List α} {i : Nat} {a : α} (h : l <+: l')
    (hi : l[i]? = some a) : l'[i]? = some a := by
  obtain ⟨more, rfl⟩ := h
  rw [List.getElem?_append_left (List.getElem?_eq_some_iff.mp hi).1, hi]

namespace SlotPool

variable {kinds : List ValType} {kind : ValType}

/-- The second pool has the slots of the first, and maybe more. -/
structure Extends (pool pool' : SlotPool) : Prop where
  first : pool'.first = pool.first
  params : pool'.params = pool.params
  kinds : pool.kinds.toList <+: pool'.kinds.toList

variable {pool pool' pool'' : SlotPool} {slots taken rest : List Nat}

theorem Extends.refl (pool : SlotPool) : pool.Extends pool := ⟨rfl, rfl, List.prefix_refl _⟩

theorem Extends.trans (h : pool.Extends pool') (h' : pool'.Extends pool'') : pool.Extends pool'' :=
  ⟨h'.first.trans h.first, h'.params.trans h.params, h.kinds.trans h'.kinds⟩

theorem Extends.kind? {slot : Nat} (h : pool.Extends pool') (hkind : pool.kind? slot = some kind) :
    pool'.kind? slot = some kind := by
  unfold SlotPool.kind? at hkind ⊢
  rw [h.first]
  split at hkind
  · cases hkind
  next hfirst =>
    rw [if_neg hfirst]
    rw [← Array.getElem?_toList] at hkind ⊢
    exact getElem?_of_prefix h.kinds hkind

theorem extends_pick (pool : SlotPool) (kind : ValType) : pool.Extends (pool.pick kind).1 := by
  unfold pick
  split
  · exact ⟨rfl, rfl, List.prefix_refl _⟩
  · exact ⟨rfl, rfl, by simp⟩

theorem extends_pickAll (pool : SlotPool) (kinds : List ValType) : pool.Extends (pool.pickAll kinds).1 := by
  induction kinds generalizing pool with
  | nil => exact .refl pool
  | cons kind kinds ih => exact (pool.extends_pick kind).trans (ih _)

theorem extends_release (pool : SlotPool) (slots : List Nat) : pool.Extends (pool.release slots).1 := by
  induction slots generalizing pool with
  | nil => exact .refl pool
  | cons slot slots ih =>
    rw [release]
    split
    · have hrest := ih { pool with live := pool.live.erase slot, free := slot :: pool.free }
      exact ⟨hrest.first, hrest.params, hrest.kinds⟩
    · exact .refl pool

theorem kind?_picked : (pool.pick kind).1.kind? (pool.pick kind).2 = some kind := by
  unfold pick
  split
  next slot hfind =>
    have hfound := List.find?_some hfind
    exact beq_iff_eq.mp hfound
  · simp [SlotPool.kind?]

theorem kind?_pickedAll (pool : SlotPool) (kinds : List ValType) :
    (pool.pickAll kinds).2.map (pool.pickAll kinds).1.kind? = kinds.map some := by
  induction kinds generalizing pool with
  | nil => rfl
  | cons kind kinds ih =>
    simp only [pickAll, List.map_cons, ih]
    rw [(extends_pickAll _ kinds).kind? kind?_picked]

/-- Slots that a pool has types for have the same types wherever the types of the pool are known. -/
theorem map_eq_kinds {f : Nat → Option ValType}
    (hf : ∀ slot kind, pool.kind? slot = some kind → f slot = some kind)
    (h : slots.map pool.kind? = kinds.map some) : slots.map f = kinds.map some := by
  rw [← h]
  refine List.map_congr_left (fun slot hslot => ?_)
  have hmem : pool.kind? slot ∈ kinds.map some := h ▸ List.mem_map_of_mem hslot
  obtain ⟨kind, -, hkind⟩ := List.mem_map.mp hmem
  rw [← hkind, hf slot kind hkind.symm]

theorem kinds_of_alloc {l : Layout} (h : pool.alloc l = .ok (pool', slots)) :
    pool.Extends pool' ∧ ∃ kinds, l.flatten = .ok kinds ∧ slots.map pool'.kind? = kinds.map some := by
  obtain ⟨kinds, hkinds, ⟨⟩⟩ := Except.exists_of_map h
  obtain ⟨hfirst, hparams, hprefix⟩ := pool.extends_pickAll kinds
  exact ⟨⟨hfirst, hparams, hprefix⟩, kinds, hkinds, pool.kind?_pickedAll kinds⟩

theorem live_pick (pool : SlotPool) (kind : ValType) : (pool.pick kind).1.live = pool.live := by
  unfold pick
  split <;> rfl

theorem live_pickAll (pool : SlotPool) : (pool.pickAll kinds).1.live = pool.live := by
  induction kinds generalizing pool with
  | nil => rfl
  | cons kind kinds ih => exact (ih _).trans (pool.live_pick kind)

theorem length_pickAll (pool : SlotPool) (kinds : List ValType) :
    (pool.pickAll kinds).2.length = kinds.length := by
  induction kinds generalizing pool with
  | nil => rfl
  | cons kind kinds ih => exact congrArg Nat.succ (ih _)

/-- Slots that are in use are given back, and the others stay in use. -/
theorem release_of_perm (h : pool.live.Perm (slots ++ rest)) :
    (pool.release slots).2 = none ∧ (pool.release slots).1.live.Perm rest := by
  induction slots generalizing pool with
  | nil => exact ⟨rfl, h⟩
  | cons slot slots ih =>
    rw [release, if_pos (h.mem_iff.mpr (.head _))]
    refine ih ?_
    have herased := h.erase slot
    rwa [List.cons_append, List.erase_cons_head] at herased

/-! ## Slots are handed out once -/

/-- The slots that may be handed out again and those that are taken are all different, and they are
all slots of the pool that are no parameters. -/
structure SoundFor (pool : SlotPool) (taken : List Nat) : Prop where
  distinct : (pool.free ++ taken).Nodup
  range : ∀ slot ∈ pool.free ++ taken, pool.first + pool.params ≤ slot ∧ slot < pool.first + pool.kinds.size
  full : (pool.free ++ taken).length + pool.params = pool.kinds.size

/-- What is in use is what is taken. -/
abbrev Sound (pool : SlotPool) : Prop := pool.SoundFor pool.live

namespace SoundFor

section

variable (h : pool.SoundFor taken)
include h

theorem perm {free taken' : List Nat} (live : List Nat)
    (hperm : (free ++ taken').Perm (pool.free ++ taken)) :
    SoundFor { pool with free := free, live := live } taken' :=
  ⟨hperm.nodup_iff.mpr h.distinct, fun slot hslot => h.range slot (hperm.mem_iff.mp hslot),
    hperm.length_eq ▸ h.full⟩

theorem pick (kind : ValType) : (pool.pick kind).1.SoundFor ((pool.pick kind).2 :: taken) := by
  unfold SlotPool.pick
  split
  next slot hfind =>
    refine h.perm pool.live ?_
    have hmem := List.mem_of_find?_eq_some hfind
    exact List.perm_middle.trans ((List.perm_cons_erase hmem).symm.append_right taken)
  · -- The new slot comes after all others.
    have hnew : pool.first + pool.kinds.size ∉ pool.free ++ taken :=
      fun hslot => Nat.lt_irrefl _ (h.range _ hslot).2
    have hperm : (pool.free ++ (pool.first + pool.kinds.size) :: taken).Perm
        ((pool.first + pool.kinds.size) :: (pool.free ++ taken)) := List.perm_middle
    refine ⟨hperm.nodup_iff.mpr (List.nodup_cons.mpr ⟨hnew, h.distinct⟩), fun slot hslot => ?_, ?_⟩
    · have hfull := h.full
      rw [Array.size_push]
      obtain rfl | hold := List.mem_cons.mp (hperm.mem_iff.mp hslot)
      · dsimp only
        omega
      · have hrange := h.range slot hold
        dsimp only
        omega
    · have hfull := h.full
      rw [Array.size_push, hperm.length_eq, List.length_cons]
      dsimp only
      omega

theorem pickAll (kinds : List ValType) :
    (pool.pickAll kinds).1.SoundFor ((pool.pickAll kinds).2 ++ taken) := by
  induction kinds generalizing pool taken with
  | nil => exact h
  | cons kind kinds ih =>
    exact (ih (h.pick kind)).perm _ (List.perm_middle.symm.append_left _)

end

/-- Slots for a value: different from each other and from all that are in use. -/
theorem alloc {l : Layout} (h : pool.Sound) (halloc : pool.alloc l = .ok (pool', slots)) :
    pool'.Sound ∧ pool'.live = slots ++ pool.live := by
  obtain ⟨kinds, -, ⟨⟩⟩ := Except.exists_of_map halloc
  have hsound := h.pickAll kinds
  rw [← live_pickAll pool] at hsound ⊢
  exact ⟨hsound.perm _ (.refl _), rfl⟩

theorem release (h : pool.Sound) (slots : List Nat) : (pool.release slots).1.Sound := by
  induction slots generalizing pool with
  | nil => exact h
  | cons slot slots ih =>
    rw [SlotPool.release]
    split
    next hmem =>
      refine ih (h.perm _ ?_)
      have hlive := List.perm_cons_erase hmem
      exact List.perm_middle.symm.trans (hlive.symm.append_left pool.free)
    · exact h

theorem ofParams (params : List ValType) : (SlotPool.ofParams params).Sound :=
  ⟨List.nodup_nil, nofun, by simp [SlotPool.ofParams]⟩

end SoundFor

end SlotPool

end TreeWasm
