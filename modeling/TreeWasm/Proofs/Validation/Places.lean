import TreeWasm.Proofs.Emission.Operators
import TreeWasm.Proofs.Emission.Scope

/-! # Types of operators and accesses

What the instructions chosen for operators, conversions and accesses take off the stack and leave on it.
For accesses, what is known of the tables grows on the way: an address that is kept in scratch slots is
only as good as the types of these slots.
-/

namespace TreeWasm

open Wasm

namespace Wasm.Instr

variable {tables : Tables} {site : Site}

theorem valid_const32_int {c : Int32} {op : IntOp} :
    AllValid tables site [.const32 c, .numeric (.int .w32 op)] [.i32] [.i32] :=
  ⟨[.i32], [], [.i32], rfl, ⟨rfl, rfl⟩, .single ⟨rfl, rfl⟩⟩

/-- An index times a size, which is left out if it is one. -/
theorem valid_scale {size : Int64} :
    AllValid tables site
      (if size = 1 then [] else [.const32 size.toInt32, .numeric (.int .w32 .mul)]) [.i32] [.i32] := by
  split
  · exact .nil _
  · exact valid_const32_int

theorem valid_clamp (kind : Scalar) (signExt : Bool) :
    AllValid tables site (kind.clamp signExt) [kind.slot] [kind.slot] := by
  cases kind with
  | u8 | u16 => exact valid_const32_int
  | i8 | i16 =>
    cases signExt with
    | true => exact .single ⟨rfl, rfl⟩
    | false => exact valid_const32_int.append valid_const32_int
  | _ => exact .nil _

theorem valid_layout_clamp (l : Layout) (signExt : Bool) :
    AllValid tables site (l.clamp signExt) [l.slot] [l.slot] := by
  unfold Layout.clamp Layout.slot
  cases l.scalar? with
  | none => exact .nil _
  | some kind => exact valid_clamp kind signExt

theorem valid_truth (kind : Scalar) : AllValid tables site (truth kind) [kind.slot] [.i32] := by
  cases kind with
  | bool => exact .nil _
  | f32 => exact ⟨[.f32], [], [.f32], rfl, ⟨rfl, rfl⟩, .single ⟨rfl, rfl⟩⟩
  | f64 => exact ⟨[.f64], [], [.f64], rfl, ⟨rfl, rfl⟩, .single ⟨rfl, rfl⟩⟩
  | _ => exact .cons ⟨rfl, rfl⟩ (.single ⟨rfl, rfl⟩)

end Wasm.Instr

namespace Emit.Ensures

open Instr

variable {ctx : EmitContext} {site : Site}

theorem conversion_valid {source target : Layout} {a b : Scalar} (ha : source.scalar? = some a)
    (hb : target.scalar? = some b) (pos : Position) :
    Ensures ctx (TreeWasm.conversion pos source target) (fun code tables =>
      AllValid tables site code [a.slot] [b.slot]) := by
  refine (conversion_eq ha hb pos).mono (fun code tables hcode => ?_)
  subst hcode
  have hclamp := @valid_clamp tables site b ctx.signExt
  split
  next h => exact h ▸ valid_truth a
  · cases hop : a.conversion? b with
    | none => exact Scalar.slot_eq_of_conversion? hop ▸ hclamp
    | some op =>
      obtain ⟨hparams, hresult⟩ := Scalar.types_conversion? hop
      exact .cons ⟨hparams.symm, by rw [hresult]⟩ hclamp

/-- The code of a unary operation takes nothing and leaves its result. -/
theorem unaryCode_valid {info : Info} {op : Operator} {x : Node} {operand : Emit Code}
    {known : Tables → Prop} (htakes : info.layout.TakesUnary op x.layout)
    (hoperand : Ensures ctx operand (fun code tables => known tables →
      AllValid tables site code [] [x.layout.slot])) :
    Ensures ctx (Emission.unaryCode info op x operand) (fun code tables => known tables →
      AllValid tables site code [] [info.layout.slot]) := by
  refine read.bind (fun c => ?_)
  split
  · obtain ⟨hscalar, hslot⟩ := htakes
    rw [hslot] at hoperand
    refine hoperand.bind (fun code => .pure (fun tables hcode _ hknown => ?_))
    have hcode := hcode hknown
    have hclamp := @valid_layout_clamp tables site info.layout c.signExt
    obtain ⟨kind, hkind⟩ := Option.isSome_iff_exists.mp hscalar
    have hvalid : info.layout.slot ≠ .invalid := Layout.slot_of_scalar? hkind ▸ kind.slot_ne_invalid
    cases hslot : info.layout.slot with
    | f32 | f64 =>
      rw [hslot] at hcode
      exact hcode.append (.single ⟨rfl, rfl⟩)
    | i64 =>
      rw [hslot] at hcode
      exact .cons ⟨rfl, rfl⟩ ((hcode.push [.i64]).append (.single ⟨rfl, rfl⟩))
    | i32 =>
      rw [hslot] at hcode hclamp
      exact .cons ⟨rfl, rfl⟩ ((hcode.push [.i32]).append (.cons ⟨rfl, rfl⟩ hclamp))
    | invalid => exact absurd hslot hvalid
  · obtain ⟨hslot, hsource⟩ := htakes
    refine hoperand.bind (fun code => .pure (fun tables hcode _ hknown => ?_))
    refine (hcode hknown).append (.single ⟨?_, by rw [hslot]; rfl⟩)
    rcases hsource with hsource | hsource <;> rw [hsource] <;> rfl
  · obtain ⟨hslot, hsource⟩ := htakes
    rw [hsource] at hoperand
    refine hoperand.bind (fun code => ?_)
    split
    next hlong =>
      refine .pure (fun tables hcode _ hknown => ?_)
      rw [hlong] at hcode ⊢
      exact (hcode hknown).append ⟨[.i64], [], [.i64], rfl, ⟨rfl, rfl⟩, .single ⟨rfl, rfl⟩⟩
    next hlong =>
      have hword : info.layout.slot = .i32 := hslot.resolve_right hlong
      refine .pure (fun tables hcode _ hknown => ?_)
      have hclamp := @valid_layout_clamp tables site info.layout c.signExt
      rw [hword] at hcode hclamp ⊢
      exact (hcode hknown).append (valid_const32_int.append hclamp)
  · exact .fail

end Emit.Ensures

/-! ## Accesses -/

open Wasm.Instr (AllValid)

variable {α : Type} {l : Layout} {kind : Scalar} {source : Address} {items : List α}

namespace Wasm.Instr.AllValid

variable {tables : Tables} {site : Site} {slots : List Nat} {types : List ValType}

theorem flatten {types : α → List ValType} {codes : List Code}
    (h : List.Forall₂ (fun item code => AllValid tables site code [] (types item)) items codes) :
    AllValid tables site codes.flatten [] (items.flatMap types) := by
  induction h with
  | nil => exact .nil []
  | cons hfirst _ ih => exact hfirst.append (ih.push _)

theorem localGets (h : slots.map tables.slots = types.map some) :
    AllValid tables site (slots.map .localGet) [] types := by
  rw [map_eq_map_iff_forall₂] at h
  induction h with
  | nil => exact .nil []
  | cons hslot _ ih => exact .cons ⟨rfl, _, hslot, rfl⟩ (ih.push _)

theorem localSets (h : slots.map tables.slots = types.map some) :
    AllValid tables site (slots.reverse.map .localSet) types [] := by
  rw [map_eq_map_iff_forall₂] at h
  induction h with
  | nil => exact .nil []
  | @cons _ type _ _ hslot _ ih =>
    rw [List.reverse_cons, List.map_append]
    exact (ih.frame [type]).append (.single ⟨⟨type, hslot, rfl⟩, rfl⟩)

theorem drops {count : Nat} (h : types.length = count) :
    AllValid tables site (List.replicate count .drop) types [] := by
  induction count generalizing types with
  | zero =>
    rw [List.length_eq_zero_iff.mp h]
    exact .nil []
  | succ count ih =>
    rcases List.eq_nil_or_concat types with rfl | ⟨init, last, rfl⟩
    · cases h
    · rw [List.length_concat, Nat.succ_inj] at h
      refine ⟨init, [last], [], List.concat_eq_append, ⟨⟨last, rfl⟩, rfl⟩, ?_⟩
      rw [List.append_nil]
      exact ih h

end Wasm.Instr.AllValid

namespace Layout

variable {instr : Instr} {offset : Int64} {l : Layout} {kind : Scalar} {site : Site} {tables : Tables}

theorem valid_load (hkind : l.scalar? = some kind) (h : l.load offset = .ok instr) :
    instr.Valid tables site [.i32] [kind.slot] := by
  rw [load, hkind] at h
  obtain ⟨immediate, himmediate, rfl⟩ := Except.exists_of_map h
  exact ⟨(of_memoryOffset himmediate).2, rfl, by cases kind <;> rfl⟩

theorem valid_store (hkind : l.scalar? = some kind) (h : l.store offset = .ok instr) :
    instr.Valid tables site [.i32, kind.slot] [] := by
  rw [store, hkind] at h
  obtain ⟨immediate, himmediate, rfl⟩ := Except.exists_of_map h
  exact ⟨(of_memoryOffset himmediate).2, by cases kind <;> rfl, rfl⟩

end Layout

/-- Some slots hold addresses. -/
def Tables.Words (tables : Tables) (slots : List Nat) : Prop := ∀ slot ∈ slots, tables.slots slot = some .i32

/-- Under tables of which something is known, code turns values of some types into others. -/
abbrev Emit.Valid (site : Site) (ctx : EmitContext) (known : Tables → Prop)
    (first second : List ValType) (x : Emit Code) : Prop :=
  Ensures ctx x (fun code tables => known tables → AllValid tables site code first second)

namespace Address

/-- The code of an address pushes one, under tables of which something is known. -/
structure Valid (site : Site) (ctx : EmitContext) (known : Tables → Prop) (address : Address) :
    Prop where
  slot : address.layout.slot = .i32
  code : Emit.Ensures ctx address.code (fun code tables =>
    known tables → AllValid tables site code [] [.i32])

variable {site : Site} {ctx : EmitContext} {known known' : Tables → Prop} {address : Address}

section

variable (h : address.Valid site ctx known)
include h

theorem Valid.mono (himp : ∀ tables, known' tables → known tables) : address.Valid site ctx known' where
  slot := h.slot
  code := h.code.mono (fun _ tables hcode hknown => hcode (himp tables hknown))

theorem Valid.offsetBy (pos : Position) (index : Int32) (size : Int64) :
    (address.offsetBy pos index size).Valid site ctx known where
  slot := h.slot
  code := by
    refine h.code.bind (fun code => .pure (fun tables hcode hknown => ?_))
    have hindex : AllValid tables site [.const32 index] [] [.i32] := .single ⟨rfl, rfl⟩
    exact ((((hcode hknown).mark pos).append ((hindex.mark pos).push [.i32])).append
      (Instr.valid_scale.frame [.i32])).append (.single ⟨rfl, rfl⟩)

/-- An address that is used several times is computed once, unless its code may be repeated. -/
theorem Valid.hold (uses : Int) :
    Emit.Ensures ctx (address.hold uses) (fun held tables =>
      held.2.1.Valid site ctx (fun tables => known tables ∧ tables.Words held.2.2) ∧
        tables.Words held.2.2 ∧ (known tables → AllValid tables site held.1 [] [])) := by
  unfold Address.hold
  split
  · refine .pure (fun tables => ⟨h.mono (fun _ hknown => hknown.1), ?_, fun _ => .nil []⟩)
    exact fun slot hslot => absurd hslot List.not_mem_nil
  · have htypes := Layout.slots_of_slot h.slot (by decide)
    refine Emit.Ensures.allocScratch.bind_of (fun slots hslots => ?_)
    have hone : slots.length = 1 := by
      obtain ⟨_, _, hslots⟩ := hslots
      simpa [htypes] using congrArg List.length hslots
    obtain ⟨slot, rfl⟩ := List.length_eq_one_iff.mp hone
    refine h.code.bind (fun code => .pure (fun tables hcode hslots => ?_))
    have hslot : tables.slots slot = some .i32 := by simpa [htypes] using hslots.2
    refine ⟨⟨h.slot, .pure (fun tables hknown => ?_)⟩, ?_, fun hknown => ?_⟩
    · exact .single ⟨rfl, .i32, hknown.2 slot (.head _), rfl⟩
    · exact fun other hother => List.mem_singleton.mp hother ▸ hslot
    · exact (hcode hknown).append (.single ⟨⟨.i32, hslot, rfl⟩, rfl⟩)

end

end Address

namespace Emit.Ensures

variable {site : Site} {ctx : EmitContext} {known : Tables → Prop} {address : Address}
  {info : Info} {sourceOffset targetOffset : Int64} {t : α → List ValType}

/-- A row of emissions that push their results one after the other. -/
theorem mapM_valid {f : α → Emit Code}
    (h : ∀ item ∈ items, (f item).Valid site ctx known [] (t item)) :
    Ensures ctx (items.mapM f) (fun codes tables =>
      known tables → AllValid tables site codes.flatten [] (items.flatMap t)) :=
  (Ensures.mapM items h).mono (fun _ _ hcodes hknown =>
    .flatten (hcodes.imp (fun _ _ hcode => hcode hknown)))

section

variable (h : address.Valid site ctx known)
include h

/-- Accesses at one address, from code that pushes it. -/
theorem accesses_valid {access : Code → α → Emit Code} (uses : Int)
    (haccess : ∀ code, ∀ item ∈ items, Ensures ctx (access code item) (fun code' tables =>
      AllValid tables site code [] [.i32] → known tables → AllValid tables site code' [] (t item))) :
    (address.accesses uses items access).Valid site ctx known [] (items.flatMap t) := by
  refine (h.hold _).bind_of (fun held hvalid => ?_)
  obtain ⟨_, hkept, _⟩ := hvalid
  refine (mapM_valid (fun item hitem => hkept.code.bind (fun code => (haccess code item hitem).mono
    (fun _ _ hitem hcode hknown => hitem (hcode hknown) hknown.1)))).bind (fun codes =>
      Ensures.releaseScratch.bind (fun _ => .pure (fun tables _ hcodes hheld hknown => ?_)))
  exact (hheld.2.2 hknown).append (hcodes ⟨hknown, hheld.2.1⟩)

theorem loadLeaves_valid {offset : Int64} :
    (Emission.loadLeaves info address offset).Valid site ctx known [] info.layout.slots := by
  rw [Emission.loadLeaves_eq]
  split
  · exact .fail_bind
  · refine Ensures.ofLayout.bind (fun leaves => (accesses_valid h _ (fun code leaf _ =>
      Ensures.ofLayout.bind (fun load => .pure (fun tables hload hcode _ =>
        hcode.append (.single (Layout.valid_load rfl hload)))))).mono
          (fun code tables hcode hleaves hknown => ?_))
    rw [Layout.slots, Layout.kinds, hleaves, List.map_map, List.map_eq_flatMap]
    exact hcode hknown

theorem storeSlots_valid (offset : Int64) {slots : List Nat}
    (hslots : ∀ tables, known tables → slots.map tables.slots = info.layout.slots.map some) :
    (Place.storeSlots info address offset slots).Valid site ctx known [] [] := by
  rw [Place.storeSlots_eq]
  refine Ensures.ofLayout.bind_of (fun leaves hleaves => ?_)
  obtain ⟨_, hleaves⟩ := hleaves
  have hpairs : ∀ tables, known tables → ∀ pair ∈ leaves.zip slots,
      tables.slots pair.2 = some pair.1.slot := by
    intro tables hknown pair hpair
    have hrow := hslots tables hknown
    rw [Layout.slots, Layout.kinds, hleaves, List.map_map, List.map_map, map_eq_map_iff_forall₂] at hrow
    exact (List.forall₂_iff_zip.mp hrow.flip).2 hpair
  split
  · exact .fail_bind
  · refine (accesses_valid (t := fun _ => []) h _ (fun code pair hpair => Ensures.ofLayout.bind
      (fun store => .pure (fun tables hstore hcode hknown => ?_)))).mono
        (fun code tables hcode _ hknown => ?_)
    · have hget : AllValid tables site [.localGet pair.2] [] [pair.1.slot] :=
        .single ⟨rfl, pair.1.slot, hpairs tables hknown pair hpair, rfl⟩
      exact hcode.append ((hget.push [.i32]).append (.single (Layout.valid_store rfl hstore)))
    · have hcode := hcode hknown
      rwa [List.flatMap_eq_nil_iff.mpr (fun _ _ => rfl)] at hcode

theorem transfer_valid (hsource : source.Valid site ctx known) {t : Transfer} :
    Emit.Valid site ctx known [] [] (do
      let targetCode ← address.code
      let sourceCode ← source.code
      return targetCode ++ sourceCode ++
        [.load t.loadOp (immediate sourceOffset), .store t.storeOp (immediate targetOffset)]) := by
  refine h.code.bind (fun targetCode => hsource.code.bind (fun sourceCode => .pure
    (fun tables hsourceCode htargetCode hknown => ?_)))
  have hread : AllValid tables site [.load t.loadOp (immediate sourceOffset)] [.i32] [t.storeOp.operand] := by
    refine .single ⟨UInt32.toNat_lt _, rfl, ?_⟩
    unfold Transfer.storeOp Transfer.loadOp
    split <;> rfl
  have hwrite : AllValid tables site [.store t.storeOp (immediate targetOffset)]
      [.i32, t.storeOp.operand] [] := .single ⟨UInt32.toNat_lt _, rfl, rfl⟩
  exact ((htargetCode hknown).append ((hsourceCode hknown).push [.i32])).append
    ((hread.frame [.i32]).append hwrite)

theorem copyMemory_valid (hsource : source.Valid site ctx known) {size : Int64} :
    (copyMemory size address targetOffset source sourceOffset).Valid site ctx known [] [] := by
  unfold copyMemory
  refine (h.hold _).bind_of (fun target htarget => ?_)
  obtain ⟨_, htarget, _⟩ := htarget
  refine (hsource.hold _).bind_of (fun source hsource => ?_)
  obtain ⟨_, hsource, _⟩ := hsource
  have hboth := htarget.mono (fun tables (hknown : (known tables ∧ tables.Words target.2.2) ∧
    tables.Words source.2.2) => hknown.1)
  refine (mapM_valid (fun t _ => transfer_valid hboth
    (hsource.mono (fun _ hknown => ⟨hknown.1.1, hknown.2⟩)))).bind
      (fun copies => Ensures.releaseScratch.bind (fun _ => Ensures.releaseScratch.bind
        (fun _ => .pure (fun tables _ _ hcopies hsource htarget hknown => ?_))))
  have hcopies := hcopies ⟨⟨hknown, htarget.2.1⟩, hsource.2.1⟩
  rw [List.flatMap_eq_nil_iff.mpr (fun _ _ => rfl)] at hcopies
  exact ((htarget.2.2 hknown).append (hsource.2.2 hknown)).append hcopies

end

end Emit.Ensures

end TreeWasm
