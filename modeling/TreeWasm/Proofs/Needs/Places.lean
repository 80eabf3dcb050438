import TreeWasm.Proofs.Needs.Traces

/-! # What addresses and places ask for

The code of an address is covered by the demand of the node that it is taken from, and so is what is
read from a place or written to it. An address is emitted more than once only if it is a constant or
in slots, and these do not branch, so that no branch is repeated.
-/

namespace TreeWasm

open Wasm

variable {l : Layout} {slots held : List Nat} {offset : Int64} {i : Instr}
  {f : Code × Address × List Nat → Emit Code}

namespace Demand

variable {d e k : Demand} {tables : Tables} {around : List (Option Nat)}

/-- Pieces of code that each use the same thing, which may be repeated unless there is one piece. -/
theorem covers_flatten {codes : List Code} (h : ∀ code ∈ codes, (k ++ e).Covers tables around code)
    (he : e.Free) (hk : k.Free ∨ codes.length ≤ 1) :
    (k ++ e).Covers tables around codes.flatten := by
  rcases hk with hk | hlen
  · have hfree := hk.append he
    induction codes with
    | nil => exact .plain nofun
    | cons code rest ih =>
      have hrest := ih (fun other hother => h other (.tail _ hother))
      exact ((h code (.head _)).append hrest).mono hfree.twice
  · match codes, hlen with
    | [], _ => exact .plain nofun
    | [code], _ => simpa using h

theorem covers_slots {make : Nat → Instr} (hmake : make = .localGet ∨ make = .localSet)
    (h : ∀ slot ∈ held, ∃ l slots, .slots l slots ∈ d.needs ∧ slot ∈ slots) :
    d.Covers tables around (held.map make) := by
  refine .plain (fun i hi => ?_)
  obtain ⟨slot, hslot, rfl⟩ := List.mem_map.mp hi
  obtain rfl | rfl := hmake <;> exact ⟨rfl, .inr (h slot hslot)⟩

theorem covers_gets (h : held ⊆ slots) :
    (ofNeeds [.slots l slots]).Covers tables around (held.map .localGet) :=
  covers_slots (.inl rfl) (fun _ hslot => ⟨l, slots, List.mem_singleton_self _, h hslot⟩)

theorem covers_sets (h : held ⊆ slots) :
    (ofNeeds [.slots l slots]).Covers tables around (held.map .localSet) :=
  covers_slots (.inr rfl) (fun _ hslot => ⟨l, slots, List.mem_singleton_self _, h hslot⟩)

end Demand

/-- Emitted code is covered by a demand, wherever it stands. -/
def Emit.Asks (d : Demand) (x : Emit Code) : Prop :=
  ∀ ctx, Emit.Ensures ctx x (fun code tables => d.Covers tables ctx.enclosing code)

namespace Emit.Asks

variable {d e : Demand} {x : Emit Code}

theorem mono (h : Asks d x) (hwithin : d.Within e) : Asks e x :=
  fun ctx => (h ctx).mono (fun _ _ hcode => hcode.mono hwithin)

theorem fail {pos : Position} {defect : CodeDefect} : Asks d (Emit.fail pos defect) := fun _ => .fail

end Emit.Asks

open Emit (Asks Ensures)

theorem Layout.store_eq_ok (h : l.store offset = .ok i) : ∃ op immediate, i = .store op immediate := by
  unfold Layout.store at h
  split at h
  · cases h
  · obtain ⟨immediate, -, rfl⟩ := Except.exists_of_map h
    exact ⟨_, immediate, rfl⟩

theorem Layout.load_eq_ok (h : l.load offset = .ok i) : ∃ op immediate, i = .load op immediate := by
  unfold Layout.load at h
  split at h
  · cases h
  · obtain ⟨immediate, -, rfl⟩ := Except.exists_of_map h
    exact ⟨_, immediate, rfl⟩

namespace Address

/-- The code of an address is covered by a demand, and does not branch if it may be repeated. -/
structure Asks (address : Address) (d : Demand) : Prop where
  code : Emit.Asks d address.code
  free : address.stable → d.Free

variable {address : Address} {d e : Demand}

section

variable (h : address.Asks d)
include h

theorem Asks.offsetBy (pos : Position) (index : Int32) (size : Int64) :
    (address.offsetBy pos index size).Asks d where
  code := fun ctx => by
    refine Ensures.map ((h.code ctx).mono (fun code tables hcode => ?_))
    simp only [List.append_assoc]
    refine hcode.wrap [.mark pos] _ rfl ?_
    split <;> rfl
  free := nofun

/-- An address that is used some times, with what comes after it. If it is used more than once, it can
be repeated or is kept in scratch slots, which are then in the tables. -/
theorem Asks.hold_of (uses : Int) (ctx : EmitContext) {K : Tables → Prop}
    (hf : ∀ setup kept spilled k dset, kept.Asks k → (k.Free ∨ uses ≤ 1) →
      Ensures ctx (f (setup, kept, spilled)) (fun code tables =>
        dset.Covers tables ctx.enclosing setup → K tables → (dset ++ (k ++ e)).Covers tables ctx.enclosing code)) :
    Ensures ctx (address.hold uses >>= f)
      (fun code tables => K tables → (d ++ e).Covers tables ctx.enclosing code) := by
  unfold Address.hold
  split
  next hrepeat =>
    have hfree : d.Free ∨ uses ≤ 1 := by
      rcases Bool.or_eq_true_iff.mp hrepeat with hstable | huses
      · exact .inl (h.free hstable)
      · exact .inr (of_decide_eq_true huses)
    refine (hf [] address [] d .none h hfree).mono (fun code tables hcode => ?_)
    exact hcode (.plain nofun)
  · simp only [bind_assoc, pure_bind]
    refine Ensures.allocScratch.bind (fun slots => ?_)
    refine (h.code ctx).bind (fun code => ?_)
    have hkept : Address.Asks { address with stable := true, code := pure (slots.map .localGet) }
        (.ofNeeds [.slots address.layout slots]) :=
      ⟨fun ctx => .pure (fun tables => Demand.covers_gets (List.Subset.refl _)), fun _ => Demand.free_ofNeeds⟩
    refine (hf _ _ slots _ (d ++ .ofNeeds [.slots address.layout slots]) hkept
      (.inl Demand.free_ofNeeds)).mono (fun rest tables hrest hcode hslots hknown => ?_)
    have hsetup := hrest (hcode.append (Demand.covers_sets (List.take_subset 1 slots))) hknown
    exact Demand.Covers.discharge (hsetup.mono (by grind)) hslots

theorem Asks.hold (uses : Int) (ctx : EmitContext)
    (hf : ∀ setup kept spilled k dset, kept.Asks k → (k.Free ∨ uses ≤ 1) →
      Ensures ctx (f (setup, kept, spilled)) (fun code tables =>
        dset.Covers tables ctx.enclosing setup → (dset ++ (k ++ e)).Covers tables ctx.enclosing code)) :
    Ensures ctx (address.hold uses >>= f) (fun code tables => (d ++ e).Covers tables ctx.enclosing code) := by
  have hheld := h.hold_of (K := fun _ => True) uses ctx (fun setup kept spilled k dset hkept huses =>
    (hf setup kept spilled k dset hkept huses).mono (fun code tables hcode hsetup _ => hcode hsetup))
  exact hheld.mono (fun code tables hcode => hcode trivial)

/-- Accesses at one address, each of which asks for the same besides it. -/
theorem Asks.accesses {α : Type} {items : List α} {access : Code → α → Emit Code} {uses : Int}
    (he : e.Free) (huses : items.length ≤ uses) (ctx : EmitContext)
    (haccess : ∀ k code, ∀ item ∈ items, Ensures ctx (access code item) (fun code' tables =>
      k.Covers tables ctx.enclosing code → (k ++ e).Covers tables ctx.enclosing code')) :
    Ensures ctx (address.accesses uses items access)
      (fun code tables => (d ++ e).Covers tables ctx.enclosing code) := by
  refine h.hold _ ctx (fun setup kept spilled k dset hkept hk => ?_)
  refine (Ensures.mapM _
    (fun item hitem => (hkept.code ctx).bind (fun code => haccess k code item hitem))).bind
      (fun codes => Ensures.releaseScratch.bind (fun _ => ?_))
  refine .pure (fun tables _ hcodes hsetup => hsetup.append ?_)
  refine Demand.covers_flatten (fun code hcode => ?_) he (hk.imp_right (fun hone => ?_))
  · obtain ⟨item, -, hitem⟩ := exists_mem_of_forall₂ hcodes hcode
    exact hitem
  · have hlen := hcodes.length_eq
    omega

end

end Address

/-- A place is reached with no more than a demand. -/
def Place.Asks (d : Demand) : Place → Prop
  | .slots _ held => ∀ slot ∈ held, ∃ l slots, .slots l slots ∈ d.needs ∧ slot ∈ slots
  | .memory _ address _ => address.Asks d ∧ .memory ∈ d.needs
  | .none _ _ => True

namespace Place

variable {place : Place} {d : Demand}

theorem Asks.part {part : Place} {index : Nat} (h : place.Asks d)
    (hpart : place.part index = .ok part) : part.Asks d := by
  cases place with
  | none pos form => cases hpart
  | slots info held =>
    have hrange (first count : Nat) : ∀ slot ∈ Node.slotRange held first count,
        ∃ l slots, .slots l slots ∈ d.needs ∧ slot ∈ slots :=
      fun slot hslot => h slot (List.mem_of_mem_drop (List.mem_of_mem_take hslot))
    rw [Place.part] at hpart
    split at hpart
    · simp only at hpart
      split at hpart
      · cases hpart
      · obtain ⟨kinds, -, hpart⟩ := Except.exists_of_bind hpart
        cases hpart
        exact hrange _ _
    · obtain ⟨field, -, hpart⟩ := Except.exists_of_bind hpart
      obtain ⟨kinds, -, hpart⟩ := Except.exists_of_bind hpart
      cases hpart
      exact hrange _ _
  | memory info address offset =>
    rw [Place.part] at hpart
    split at hpart
    · cases hpart
      exact ⟨h.1.offsetBy _ _ _, h.2⟩
    · obtain ⟨field, -, hpart⟩ := Except.exists_of_bind hpart
      cases hpart
      exact h

/-- Slots that are written to memory: they are needed besides the place. -/
theorem asks_storeSlots (info : Info) {address : Address} (h : address.Asks d) (hmemory : .memory ∈ d.needs)
    (offset : Int64) :
    Emit.Asks (d ++ .ofNeeds [.slots l held]) (storeSlots info address offset held) := by
  intro ctx
  rw [storeSlots_eq]
  refine Ensures.ofLayout.bind (fun leaves => ?_)
  split
  · exact .fail_bind
  · refine (h.accesses (e := .ofNeeds [.memory, .slots l held]) Demand.free_ofNeeds
      (by rw [List.length_zip]; omega) ctx (fun k code item hitem => ?_)).mono
        (fun code tables hcode _ => hcode.mono (by grind))
    refine Ensures.ofLayout.bind (fun store => .pure (fun tables hstore hcode => ?_))
    refine hcode.append (.plain (fun i hi => ?_))
    rcases List.mem_cons.mp hi with rfl | hi
    · exact ⟨rfl, .inr ⟨l, held, by simp [Demand.ofNeeds], (List.of_mem_zip hitem).2⟩⟩
    · obtain rfl := List.mem_singleton.mp hi
      obtain ⟨op, offset', rfl⟩ := Layout.store_eq_ok hstore
      exact ⟨rfl, by simp [Instr.Backed, Demand.ofNeeds]⟩

theorem asks_consume (h : place.Asks d) : Emit.Asks d place.consume := by
  intro ctx
  cases place with
  | none pos form => exact .fail
  | slots info held =>
    exact .pure (fun tables => Demand.covers_slots (.inr rfl)
      (fun slot hslot => h slot (List.mem_reverse.mp hslot)))
  | memory info address offset =>
    refine Ensures.allocScratch.bind (fun held => ?_)
    refine (asks_storeSlots (l := info.layout) info h.1 h.2 offset ctx).bind (fun code => ?_)
    refine Ensures.releaseScratch.bind (fun _ => .pure (fun tables _ hcode hslots => ?_))
    have hsets : (Demand.ofNeeds [.slots info.layout held]).Covers tables ctx.enclosing
        (held.reverse.map .localSet) :=
      Demand.covers_sets (fun slot hslot => List.mem_reverse.mp hslot)
    exact Demand.Covers.discharge ((hsets.append hcode).mono (by grind)) hslots

end Place

/-! ## Copies -/

/-- A copy that uses each address once has at most one access. -/
theorem Transfer.length_covering {size : Int} (h : size.tdiv 8 + size.tmod 8 ≤ 1) :
    (Transfer.covering size.toNat).length ≤ 1 := by
  rcases Int.lt_or_le size 0 with hneg | hpos
  · rw [Int.toNat_of_nonpos (Int.le_of_lt hneg)]
    decide
  · obtain ⟨n, rfl⟩ := Int.eq_ofNat_of_zero_le hpos
    rw [Int.toNat_natCast]
    have hsmall : n / 8 + n % 8 ≤ 1 := by
      have hdiv : (n : Int).tdiv 8 = ((n / 8 : Nat) : Int) := rfl
      have hmod : (n : Int).tmod 8 = ((n % 8 : Nat) : Int) := rfl
      omega
    obtain rfl | rfl | rfl : n = 0 ∨ n = 1 ∨ n = 8 := by omega
    all_goals decide

theorem asks_copyMemory {size : Int64} {target source : Address} {d e : Demand} (ht : target.Asks d)
    (hs : source.Asks e) (hmemory : .memory ∈ d.needs) {targetOffset sourceOffset : Int64} :
    Emit.Asks (e ++ d) (copyMemory size target targetOffset source sourceOffset) := by
  intro ctx
  have hcopy : Ensures ctx (copyMemory size target targetOffset source sourceOffset)
      (fun code tables => (d ++ (e ++ .ofNeeds [.memory])).Covers tables ctx.enclosing code) := by
    refine ht.hold _ ctx (fun targetSetup target targetSlots k dset ht hk => ?_)
    refine (hs.hold_of (size.toInt.tdiv 8 + size.toInt.tmod 8) ctx
     
      (e := dset ++ (k ++ .ofNeeds [.memory])) ?_).mono
        (fun code tables hcode hsetup => (hcode hsetup).mono (by grind))
    intro sourceSetup source sourceSlots k' dset' hs hk'
    refine (Ensures.mapM (R := fun _ code tables =>
      ((k ++ k') ++ .ofNeeds [.memory]).Covers tables ctx.enclosing code) _ (fun t _ => ?_)).bind
        (fun copies => ?_)
    · refine (ht.code ctx).bind (fun targetCode => (hs.code ctx).bind (fun sourceCode => ?_))
      refine .pure (fun tables hsource htarget => (htarget.append hsource).append ?_)
      refine .plain (fun i hi => ?_)
      simp only [List.mem_cons, List.not_mem_nil, or_false] at hi
      rcases hi with rfl | rfl <;> exact ⟨rfl, by simp [Instr.Backed, Demand.ofNeeds]⟩
    · refine Ensures.releaseScratch.bind (fun _ => Ensures.releaseScratch.bind (fun _ => ?_))
      refine .pure (fun tables _ _ hcopies hsetup' hsetup => ?_)
      have hfree : (k ++ k').Free ∨ copies.length ≤ 1 := by
        rcases hk with hk | hone
        · rcases hk' with hk' | hone
          · exact .inl (hk.append hk')
          · exact .inr (hcopies.length_eq ▸ Transfer.length_covering hone)
        · exact .inr (hcopies.length_eq ▸ Transfer.length_covering hone)
      have hflat : ((k ++ k') ++ .ofNeeds [.memory]).Covers tables ctx.enclosing copies.flatten := by
        refine Demand.covers_flatten (fun code hcode => ?_) Demand.free_ofNeeds hfree
        obtain ⟨t, -, ht⟩ := exists_mem_of_forall₂ hcopies hcode
        exact ht
      exact ((hsetup.append hsetup').append hflat).mono (by grind)
  exact hcopy.mono (fun code tables hcode => hcode.mono (by grind))

end TreeWasm
