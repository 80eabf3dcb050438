import TreeWasm.Proofs.Simplify.Operators
import TreeWasm.Proofs.Simplify.Reductions

/-! # Addresses and offsets

Constant parts of an address move into the offset of the access. The address and the offset taken
as one 64-bit word stay what they were, and that word decides every access inside memory.
-/

namespace TreeWasm

open Wasm

variable {a a' : BitVec 32} {offset offset' : Int64} {values : List Value}

namespace Layout

variable {p : BitVec 32} {more size : Int64} {m : Memory} {v : Value} {l : Layout} {s : Store}

/-- An address and an offset as one word. -/
def anchor (a : BitVec 32) (offset : Int64) : BitVec 64 := a.setWidth 64 + offset.toBitVec

theorem ofInt_effective : BitVec.ofInt 64 (effective a offset) = anchor a offset := by
  rw [effective, BitVec.ofInt_add, BitVec.ofInt_natCast, BitVec.ofNat_toNat,
    ← Int64.toInt_toBitVec, BitVec.ofInt_toInt, anchor]

theorem anchor_add : anchor a (offset + more) = anchor a offset + more.toBitVec := by
  rw [anchor, anchor, Int64.toBitVec_add, BitVec.add_assoc]

/-- The address of the whole word, as the machine adds it up. -/
theorem add_toInt32_eq : a + offset.toInt32.toBitVec = (anchor a offset).setWidth 32 := by
  rw [anchor, BitVec.setWidth_add _ _ (by decide), BitVec.setWidth_setWidth_of_le _ (by decide),
    BitVec.setWidth_eq, toBitVec_toInt32]

section

variable (h : anchor a offset = anchor a' offset')
include h

/-- Inside memory, the word decides the place of an access. -/
theorem effective_eq (more : Int64) (hlow : 0 ≤ effective a (offset + more))
    (hhigh : effective a (offset + more) ≤ 2 ^ 32) :
    effective a' (offset' + more) = effective a (offset + more) := by
  have hword : BitVec.ofInt 64 (effective a (offset + more)) =
      BitVec.ofInt 64 (effective a' (offset' + more)) := by
    rw [ofInt_effective, ofInt_effective, anchor_add, anchor_add, h]
  have hnat := congrArg BitVec.toNat hword
  rw [BitVec.toNat_ofInt, BitVec.toNat_ofInt] at hnat
  have hmin := Int64.le_toInt (offset' + more)
  have hmax := Int64.toInt_lt (offset' + more)
  have haddress := a'.isLt
  have heq : effective a' (offset' + more) = a'.toNat + (offset' + more).toInt := rfl
  omega

theorem load_eq {op : LoadOp} (hload : m.load op (effective a (offset + more)) = .value v) :
    m.load op (effective a' (offset' + more)) = .value v := by
  unfold Memory.load at hload
  split at hload
  next hbounds =>
    obtain ⟨hlow, hhigh⟩ := of_decide_eq_true hbounds
    have hsize := m.size_le
    rw [effective_eq h more hlow (by omega), Memory.load, if_pos hbounds]
    exact hload
  · cases hload

theorem store_eq {m' : Memory} {op : StoreOp}
    (hstore : m.store op (effective a (offset + more)) v = .value m') :
    m.store op (effective a' (offset' + more)) v = .value m' := by
  unfold Memory.store at hstore ⊢
  split at hstore
  · cases hstore
  · split at hstore
    next hbounds =>
      obtain ⟨hlow, hhigh⟩ := of_decide_eq_true hbounds
      have hsize := m.size_le
      rw [effective_eq h more hlow (by omega), if_pos hbounds]
      exact hstore
    · cases hstore

end

variable {a a' : BitVec 32} {offset offset' : Int64}

section

variable (h : anchor a offset = anchor a' offset')
include h

theorem readLeaves_eq {leaves : List Leaf} (hread : readLeaves m a offset leaves = .value values) :
    readLeaves m a' offset' leaves = .value values := by
  induction leaves generalizing values with
  | nil => exact hread
  | cons leaf rest ih =>
    obtain ⟨v, hload, hrest⟩ := Attempt.bind_eq_value hread
    obtain ⟨more, hmore, hvalues⟩ := Attempt.bind_eq_value hrest
    rw [readLeaves, load_eq h hload, ih hmore]
    exact hvalues

theorem readAt_keeps :
    (Result.ofAttempt (l.readAt m a offset) s).Keeps false (Result.ofAttempt (l.readAt m a' offset') s) := by
  unfold readAt
  split
  next leaves _ =>
    cases hread : readLeaves m a offset leaves with
    | value values => rw [readLeaves_eq h hread]; exact .refl _
    | trap => exact .trap s
    | stuck => exact .none
  · exact .none

theorem writeLeaves_keeps (leaves : List Leaf) (values : List Value) (s : Store) :
    (writeLeaves a offset leaves values s).Keeps false (writeLeaves a' offset' leaves values s) := by
  induction leaves generalizing values s with
  | nil =>
    cases values with
    | nil => exact .refl _
    | cons v values => exact .none
  | cons leaf rest ih =>
    cases values with
    | nil => exact .none
    | cons v values =>
      rw [writeLeaves, writeLeaves]
      cases hstore : s.memory.store leaf.kind.storeOp (effective a (offset + leaf.offset)) v with
      | value memory => rw [store_eq h hstore]; exact ih values _
      | trap => exact .trap s
      | stuck => exact .none

theorem writeAt_keeps : (l.writeAt a offset values s).Keeps false (l.writeAt a' offset' values s) := by
  unfold writeAt
  split
  · exact writeLeaves_keeps h _ values s
  · exact .none

end

/-- An address in the address space is what the machine computes. -/
theorem toNat_offset {v : Int32} (h : Watch.strict.allows p v.toBitVec size) :
    ((p + v.toBitVec * size.toInt32.toBitVec).toNat : Int) = p.toNat + v.toBitVec.toInt * size.toInt := by
  obtain ⟨hlow, hhigh⟩ := of_decide_eq_true h rfl
  have hword : p + v.toBitVec * size.toInt32.toBitVec =
      BitVec.ofInt 32 (p.toNat + v.toBitVec.toInt * size.toInt) := by
    rw [BitVec.ofInt_add, BitVec.ofInt_natCast, BitVec.ofNat_toNat, BitVec.setWidth_eq,
      BitVec.ofInt_mul, BitVec.ofInt_toInt, Int64.toBitVec_toInt32, ← Int64.toInt_toBitVec]
    rfl
  rw [hword, BitVec.toNat_ofInt]
  omega

/-- A constant part of an address may move into the offset. -/
theorem anchor_offset {v : Int32} (h : Watch.strict.allows p v.toBitVec size) (offset : Int64) :
    anchor (p + v.toBitVec * size.toInt32.toBitVec) offset = anchor p (offset + v.toInt64 * size) := by
  have hmoved : BitVec.ofInt 64 (v.toBitVec.toInt * size.toInt) = (v.toInt64 * size).toBitVec := by
    rw [BitVec.ofInt_mul, ← Int64.toInt_toBitVec, BitVec.ofInt_toInt, Int64.toBitVec_mul]
    rfl
  calc anchor (p + v.toBitVec * size.toInt32.toBitVec) offset
      = BitVec.ofInt 64 (p.toNat + v.toBitVec.toInt * size.toInt) + offset.toBitVec := by
        rw [anchor, ← BitVec.ofNat_toNat, ← BitVec.ofInt_natCast, toNat_offset h]
    _ = p.setWidth 64 + (v.toInt64 * size).toBitVec + offset.toBitVec := by
        rw [BitVec.ofInt_add, hmoved, BitVec.ofInt_natCast, BitVec.ofNat_toNat]
    _ = anchor p (offset + v.toInt64 * size) := by
        rw [anchor, Int64.toBitVec_add, BitVec.add_assoc, BitVec.add_comm offset.toBitVec]

end Layout

namespace Setting

open Node

variable {S : Setting} {Γ : Surroundings} {info : Info} {offset offset' : Int64} {addr addr' : Node}

/-- An address with an offset may stand for another one: whatever follows has an address of the same
anchor to work with. -/
def Moves (S : Setting) (addr : Node) (offset : Int64) (addr' : Node) (offset' : Int64) : Prop :=
  ∀ (fuel : Nat) (s : Store) (f g : List Value → Store → Result),
    (∀ a a' s, Layout.anchor a offset = Layout.anchor a' offset' →
      (f [.i32 a] s).Keeps S.traps (g [.i32 a'] s)) →
    ((addr.eval S.world S.watch fuel s).andThen f).Keeps S.traps
      ((addr'.eval S.world S.watch fuel s).andThen g)

/-- A node with the value of an address. -/
structure Addresses (S : Setting) (Γ : Surroundings) (addr : Node) : Prop where
  wellFormed : addr.WellFormed Γ
  plain : addr.every (isPlain S.kindOf)
  slot : addr.layout.slot = .i32

section

variable (h : S.Addresses Γ addr) (hworld : S.world.signature = Γ.functions)
include h hworld

theorem Addresses.word {fuel : Nat} {s s' : Store}
    (hrun : addr.eval S.world S.watch fuel s = some (.normal values, s')) :
    ∃ a, values = [.i32 a] := by
  obtain ⟨kind, hkind, hslot⟩ := Layout.exists_scalar_of_slot h.slot (by decide)
  obtain ⟨v, rfl, hv⟩ := Refines.exists_canonical ⟨hworld, h.wellFormed, h.plain⟩ hkind hrun
  obtain ⟨a, rfl⟩ := Scalar.word_of_isCanonical hslot hv
  exact ⟨a, rfl⟩

theorem Moves.refl (offset : Int64) : S.Moves addr offset addr offset := by
  intro fuel s f g hnext
  refine (Result.Keeps.refl _).andThen (fun values s₁ hrun => ?_)
  obtain ⟨a, rfl⟩ := h.word hworld hrun
  exact hnext a a s₁ rfl

end

theorem Moves.of_refines {addr'' : Node} (hrefines : S.Refines Γ addr addr')
    (h : S.Moves addr' offset addr'' offset') : S.Moves addr offset addr'' offset' := by
  intro fuel s f g hnext
  have hfirst := (hrefines.keeps fuel s).andThen (fun values s₁ _ => .refl (f values s₁))
  exact hfirst.trans (h fuel s f g hnext)

/-- Folding a constant index into the offset of an access. -/
theorem Moves.constant_index {ptr : Node} {iinfo : Info} {v : Int32} {size : Int64}
    (htraps : S.traps = false) (h : S.Moves ptr (offset + v.toInt64 * size) addr' offset') :
    S.Moves (.scaledOffset info ptr (.const32 iinfo v) size) offset addr' offset' := by
  intro fuel s f g hnext
  rw [eval, Result.andThen_assoc]
  refine h fuel s _ g (fun p a' s₁ hanchor => ?_)
  simp only [eval, Result.andThen_normal, List.singleton_append]
  split
  next hallows =>
    have hstrict : Watch.strict.allows p v.toBitVec size := by
      rw [watch, htraps] at hallows
      exact hallows
    exact hnext _ a' s₁ ((Layout.anchor_offset hstrict offset).trans hanchor)
  · exact .none

/-- The address of an access after its constant parts have moved into the offset. -/
theorem foldAddress_moves (hworld : S.world.signature = Γ.functions) (htraps : S.traps = false)
    (h : S.Addresses Γ addr) :
    S.Addresses Γ (addr.foldAddress offset).1 ∧
      S.Moves addr offset (addr.foldAddress offset).1 (addr.foldAddress offset).2.1 := by
  fun_induction foldAddress addr offset with
  | case2 info ptr index size offset c hc moved _ addr' offset' _ heq ih =>
    obtain ⟨hwfp, hwfi, hslotp, _, hsloti⟩ := h.wellFormed
    rw [heq] at ih
    obtain ⟨haddr, hmoves⟩ := ih ⟨hwfp, every_child h.plain (by simp), hslotp⟩
    obtain ⟨iinfo, v, rfl, hint⟩ := word_of_constant? hwfi hsloti hc
    refine ⟨haddr, .constant_index htraps ?_⟩
    rw [← hint]
    exact hmoves
  | _ => exact ⟨h, .refl h hworld _⟩

/-- The second node names the place that the first one names. -/
inductive Reaches (S : Setting) (Γ : Surroundings) : Node → Node → Prop
  | slots {info : Info} {slots : List Nat} : Reaches S Γ (.locals info slots) (.locals info slots)
  | memory {info : Info} {addr addr' : Node} {offset offset' : Int64} : S.traps = false →
      S.Addresses Γ addr' → S.Moves addr offset addr' offset' →
      Reaches S Γ (.data info addr offset) (.data info addr' offset')

namespace Refines

variable {xinfo : Info} {offset : Int64} {addr : Node}

/-- A value in memory at an address whose constant parts have moved into the offset. -/
theorem foldAddress (hn : S.Admits Γ (.data info addr offset)) (htraps : S.traps = false) :
    S.Refines Γ (.data info addr offset)
      (.data info (addr.foldAddress offset).1 (addr.foldAddress offset).2.1) := by
  obtain ⟨hworld, hwf, hplain⟩ := hn
  obtain ⟨hfold, hmoves⟩ := foldAddress_moves hworld htraps ⟨hwf.1, every_child hplain (by simp), hwf.2.1⟩
  refine ⟨⟨hfold.wellFormed, hfold.slot, hwf.2.2⟩, ?_, .refl _, fun fuel s => ?_⟩
  · exact (every_iff rfl).mpr ⟨every_self (n := .data info addr offset) rfl hplain, by simp [hfold.plain]⟩
  · rw [eval, eval]
    refine hmoves fuel s _ _ (fun a a' s₁ hanchor => ?_)
    rw [htraps]
    exact (Layout.readAt_keeps hanchor).andThen (fun _ _ _ => .refl _)

theorem addressOf_constant {c : Constant}
    (hn : S.Admits Γ (.addressOf info (.data xinfo addr offset))) (hc : addr.constant? = some c) :
    S.Refines Γ (.addressOf info (.data xinfo addr offset)) (.int32 info (c.int + offset).toInt32) := by
  obtain ⟨-, ⟨hslot, hwfa, hslota⟩, hplain⟩ := hn
  have hself := every_self rfl hplain
  obtain ⟨kind, hkind, hkindslot⟩ := Layout.exists_scalar_of_slot hslot (by decide)
  have hsize := size_of_isPlain_addressOf hself hkind
  obtain ⟨ainfo, v, rfl, hint⟩ := word_of_constant? hwfa hslota hc
  have hvalue : Node.int32 info (c.int + offset).toInt32 =
      .ofValue info (.i32 (v.toBitVec + offset.toInt32.toBitVec)) := by
    rw [int32_eq hkind hsize hkindslot, hint]
    simp only [Int64.toInt32_add, Int32.toInt32_toInt64, Int32.toBitVec_add]
  rw [hvalue]
  refine .ofValue hkind (Scalar.isCanonical_of_size hkindslot hsize) hself (fun fuel s => ?_)
  simp only [eval, Result.andThen_normal, Layout.displace_word]
  exact .refl _

end Refines

end Setting

end TreeWasm
